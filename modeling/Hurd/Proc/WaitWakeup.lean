import Hurd.Proc.WaitSteps

/-!
# Wake-ups of those who wait

A thread that is blocked in `proc_wait`, and has not been woken since, has no child that its request
would report.
-/

namespace Hurd.Proc.WaitServer

open Function List Finset

variable (w : WaitServer)

/-- The request is about the child, with these numbers for the groups of the two. -/
def Cares (b : Blocked) (mypgrp pgrp child : Nat) : Prop :=
  0 < b.pid ∧ w.server.pidhash b.pid.toNat = some child ∨
    b.pid ≤ 0 ∧ waiterCares b.pid mypgrp (w.server.pid child) pgrp = true

instance caresDecidable (b : Blocked) (mypgrp pgrp child : Nat) :
    Decidable (w.Cares b mypgrp pgrp child) :=
  inferInstanceAs (Decidable (_ ∧ _ ∨ _ ∧ _))

/-- The request would report the child. -/
def Asks (b : Blocked) (mypgrp pgrp child : Nat) : Prop :=
  w.Cares b mypgrp pgrp child ∧ w.reapable b.options child = true

instance asksDecidable (b : Blocked) (mypgrp pgrp child : Nat) :
    Decidable (w.Asks b mypgrp pgrp child) :=
  inferInstanceAs (Decidable (_ ∧ _))

/-- Who has not been woken would get no report if `par` were the parents of the processes and `num`
the numbers of their groups. -/
def Quiet (par num : Nat → Nat) : Prop :=
  ∀ b ∈ w.blocked, b.woken = false → ∀ c ∈ w.tree.known, par c = b.proc →
    ¬ w.Asks b (num b.proc) (num c) c

/-- Nobody who is blocked and has not been woken has a child that the request would report. -/
def NoLostWakeup : Prop := w.Quiet w.tree.parent w.pgidOf

/-- The state while the process is dying. -/
def dying (p : Nat) : WaitServer :=
  { w with server := { w.server with tree := { w.tree with
    dead := update w.tree.dead p true
    waited := update w.tree.waited p false } } }

/-- Where no wake-up is missed.

* A process is moved to another parent or group only if no request would then report a child.
* A process dies, and its heir is its parent; or the heir is its own parent and a child is dead that
  is not the last; or no request of the heir would report a child of the process.
* A process that is traced from now on is not stopped, or nobody waits for it. -/
def WakeOk : WaitCall → Prop
  | .group c => ∀ par num, moveOf w.server c (par, num) → w.Quiet par num
  | .taskDied p => w.tree.dead p = true ∨ ∀ r, heir w.tree p = some r → r = w.tree.parent p ∨
      (w.tree.parent r = r ∧ ∃ child, w.tree.ochild p = some child ∧
        isdead w.tree (w.tree.known.card + 1) child = some true) ∨
      ∀ b ∈ w.blocked, b.woken = false → b.proc = r → ∀ c ∈ w.tree.known, w.tree.parent c = p →
        ¬ (w.dying p).Asks b (w.pgidOf r) (w.pgidOf c) c
  | .markTraced p => ∀ b ∈ w.blocked, b.woken = false → b.proc = w.tree.parent p →
      w.Cares b (w.pgidOf b.proc) (w.pgidOf p) p → w.stopped p = true → w.tree.waited p = true
  | _ => True

section Asks

variable {w} {v : WaitServer} {b : Blocked} {p m n c : Nat}

theorem reapable_congr {o : WaitOptions} (hw : v.tree.waited c = w.tree.waited c)
    (hd : v.tree.dead c = w.tree.dead c) (hs : v.stopped c = w.stopped c)
    (hc : v.continued c = w.continued c) (ht : v.traced c = w.traced c) :
    v.reapable o c = w.reapable o c := by
  simp only [reapable, hw, hd, hs, hc, ht]

theorem Cares.mono (hhash : ∀ k, v.server.pidhash k = some c → w.server.pidhash k = some c)
    (hpid : v.server.pid c = w.server.pid c) (h : v.Cares b m n c) : w.Cares b m n c := by
  rcases h with ⟨hpos, hfind⟩ | ⟨hle, hcares⟩
  · exact .inl ⟨hpos, hhash _ hfind⟩
  · exact .inr ⟨hle, hpid ▸ hcares⟩

theorem Asks.mono (hhash : ∀ k, v.server.pidhash k = some c → w.server.pidhash k = some c)
    (hpid : v.server.pid c = w.server.pid c)
    (hreap : v.reapable b.options c = true → w.reapable b.options c = true)
    (h : v.Asks b m n c) : w.Asks b m n c :=
  ⟨h.1.mono hhash hpid, hreap h.2⟩

theorem not_reapable {o : WaitOptions} (hd : w.tree.dead c = false) (hs : w.stopped c = false)
    (hc : w.continued c = false) : w.reapable o c = false := by
  simp [reapable, hd, hs, hc]

end Asks

section Calls

variable {w} {v : WaitServer} {s t : Server} {f : Nat → List Nat} {p r : Nat}

theorem NoLostWakeup.asks (h : NoLostWakeup w) {b : Blocked} {c : Nat} (hb : b ∈ w.blocked)
    (hn : b.woken = false) (hc : c ∈ w.tree.known) (hparent : w.tree.parent c = b.proc)
    (hhash : ∀ k, v.server.pidhash k = some c → w.server.pidhash k = some c)
    (hpid : v.server.pid c = w.server.pid c)
    (hnum : groupNumber v.server b.proc = groupNumber w.server b.proc)
    (hnumc : groupNumber v.server c = groupNumber w.server c)
    (hreap : v.reapable b.options c = w.reapable b.options c) :
    ¬ v.Asks b (v.pgidOf b.proc) (v.pgidOf c) c := by
  intro hasks
  refine h b hb hn c hc hparent ?_
  change w.Asks b (groupNumber w.server b.proc) (groupNumber w.server c) c
  rw [← hnum, ← hnumc]
  exact hasks.mono hhash hpid fun hreapable => hreap ▸ hreapable

theorem NoLostWakeup.create (h : NoLostWakeup w) (ho : Ordered w) (hs : w.create p = some v) :
    NoLostWakeup v := by
  obtain ⟨-, t, hc, hfree, hv⟩ := ho.create hs
  obtain ⟨f, hf⟩ := ho.inv.lists
  have hserver : v.server = t := by rw [hv]
  have htree : v.tree = t.tree := congrArg Server.tree hserver
  have hstopped : v.stopped = update w.stopped p false := by rw [hv]
  have hcont : v.continued = update w.continued p false := by rw [hv]
  have htraced : v.traced = update w.traced p false := by rw [hv]
  have hblocked : v.blocked = w.blocked := by rw [hv]
  intro b hb hn c hknown hparent
  rw [htree, hc.known, mem_insert] at hknown
  rw [htree, hc.parent] at hparent
  by_cases hcp : c = p
  · intro hasks
    have hnot : v.reapable b.options c = false := by
      refine not_reapable ?_ ?_ ?_
      · rw [htree, hc.dead, hcp, update_self]
      · rw [hstopped, hcp, update_self]
      · rw [hcont, hcp, update_self]
    exact Bool.noConfusion (hnot.symm.trans hasks.2)
  · have hcw : c ∈ w.tree.known := hknown.resolve_left hcp
    rw [update_of_ne hcp] at hparent
    have hbw : b.proc ∈ w.tree.known := hparent ▸ (hf.parents c hcw).1
    refine h.asks (hblocked ▸ hb) hn hcw hparent ?_ ?_ ?_ ?_ (reapable_congr ?_ ?_ ?_ ?_ ?_)
    · intro k
      rw [hserver]
      exact hc.pidhash k c hcw
    · rw [hserver]
      exact hc.pid c hcw
    · rw [hserver]
      exact hc.number _ hbw
    · rw [hserver]
      exact hc.number _ hcw
    · rw [htree, hc.waited, update_of_ne hcp]
      rfl
    · rw [htree, hc.dead, update_of_ne hcp]
      rfl
    · rw [hstopped, update_of_ne hcp]
    · rw [hcont, update_of_ne hcp]
    · rw [htraced, update_of_ne hcp]

theorem NoLostWakeup.regrouped {par num : Nat → Nat} (ht : Server.Inv t)
    (hr : Regrouped w.server t par num) (hquiet : w.Quiet par num) :
    NoLostWakeup { w with server := t } := by
  obtain ⟨f, hf⟩ := ht.lists
  intro b hb hn c hc hparent hasks
  replace hc : c ∈ t.tree.known := hc
  replace hparent : t.tree.parent c = b.proc := hparent
  have hbw : b.proc ∈ w.server.tree.known := hr.known ▸ hparent ▸ (hf.parents c hc).1
  rw [hr.known] at hc
  refine hquiet b hb hn c hc (hr.parent ▸ hparent) ?_
  rw [← hr.number _ hbw, ← hr.number c hc]
  have hreap : WaitServer.reapable { w with server := t } b.options c =
      w.reapable b.options c :=
    reapable_congr (congrFun hr.waited c) (congrFun hr.dead c) rfl rfl rfl
  exact Asks.mono (fun k hk => hr.pidhash ▸ hk) (congrFun hr.pid c) (fun h => hreap ▸ h) hasks

theorem NoLostWakeup.wakeParent (h : NoLostWakeup w)
    (hk : v.tree.known = w.tree.known) (hpar : v.tree.parent = w.tree.parent)
    (hhash : v.server.pidhash = w.server.pidhash) (hpid : v.server.pid = w.server.pid)
    (hnum : groupNumber v.server = groupNumber w.server) (hblocked : v.blocked = w.blocked)
    (hwaits : Waits v)
    (hreap : ∀ c, c ≠ p → ∀ o, v.reapable o c = w.reapable o c) :
    NoLostWakeup (v.wake (w.tree.parent p)) := by
  intro b hb hn c hc hparent
  obtain ⟨hb, hne⟩ := unwoken_wake hwaits hb hn
  have hserver : (v.wake (w.tree.parent p)).server = v.server := server_wake
  have hflags : SameFlags v (v.wake (w.tree.parent p)) := sameFlags_wake
  have htree : (v.wake (w.tree.parent p)).tree = v.tree := congrArg Server.tree hserver
  rw [htree] at hc hparent
  rw [hpar] at hparent
  have hcp : c ≠ p := by
    rintro rfl
    exact hne hparent.symm
  refine h.asks (hblocked ▸ hb) hn (hk ▸ hc) hparent ?_ ?_ ?_ ?_ ?_
  · intro k hfind
    rw [hserver, hhash] at hfind
    exact hfind
  · rw [hserver, hpid]
  · rw [hserver, hnum]
  · rw [hserver, hnum]
  · rw [← hreap c hcp]
    exact reapable_congr (by rw [htree]) (by rw [htree]) (congrFun hflags.stopped c)
      (congrFun hflags.continued c) (congrFun hflags.traced c)

theorem reported_frame {child c : Nat} (hr : Reported s child t) (hc : c ∈ t.tree.known)
    (hne : c ≠ child) : c ∈ s.tree.known ∧ t.tree.parent c = s.tree.parent c ∧
      t.tree.dead c = s.tree.dead c ∧ t.tree.waited c = s.tree.waited c ∧ t.pid c = s.pid c ∧
      ∀ k, t.pidhash k = some c → s.pidhash k = some c := by
  cases hr with
  | nothing => exact ⟨hc, rfl, rfl, rfl, rfl, fun _ hk => hk⟩
  | living => exact ⟨hc, rfl, rfl, update_of_ne hne true s.tree.waited, rfl, fun _ hk => hk⟩
  | freed hdead =>
    let v : Procs := { s.tree with waited := update s.tree.waited child true }
    have hsame : Procs.SameButLinks v (v.unlink child) := Procs.sameButLinks_unlink
    have hframe : Server.SameProcs (Server.forget { s with tree := v } child)
      ((Server.forget { s with tree := v } child).leavePgrp child) := Server.sameProcs_leavePgrp
    rw [hframe.tree] at hc ⊢
    refine ⟨mem_of_mem_erase hc, congrFun hsame.parent c, congrFun hsame.dead c, ?_,
      congrFun hframe.pid c, fun k hk => ?_⟩
    · exact (congrFun hsame.waited c).trans (update_of_ne hne true s.tree.waited)
    · rw [hframe.pidhash] at hk
      change update s.pidhash (s.pid child) none k = some c at hk
      by_cases hkc : k = s.pid child
      · rw [hkc, update_self] at hk
        cases hk
      · rwa [update_of_ne hkc] at hk

theorem reported_number {child : Nat} (hr : Reported s child t) (q : Nat) :
    groupNumber t q = groupNumber s q := by
  cases hr with
  | nothing => rfl
  | living => rfl
  | freed hdead =>
    rw [groupNumber, Server.pgid_leavePgrp, Server.pgrp_leavePgrp]
    rfl

theorem reported_self {child : Nat} (hr : Reported s child t) (hc : child ∈ t.tree.known) :
    t = s ∨ t.tree.waited child = true := by
  cases hr with
  | nothing => exact .inl rfl
  | living => exact .inr (update_self child true s.tree.waited)
  | freed hdead =>
    rw [Server.sameProcs_leavePgrp.tree] at hc
    exact absurd hc (notMem_erase child _)

theorem NoLostWakeup.reported {child : Nat} (h : NoLostWakeup w)
    (hr : Reported w.server child s) : NoLostWakeup { w with server := s } := by
  intro b hb hn c hc hparent
  replace hc : c ∈ s.tree.known := hc
  replace hparent : s.tree.parent c = b.proc := hparent
  by_cases hcc : c = child
  · rcases reported_self hr (hcc ▸ hc) with rfl | hwaited
    · exact h b hb hn c hc hparent
    · intro hasks
      have hnot : WaitServer.reapable { w with server := s } b.options c = false := by
        simp only [reapable, tree]
        rw [hcc, hwaited]
        rfl
      exact Bool.noConfusion (hnot.symm.trans hasks.2)
  · obtain ⟨hcw, hpar, hdead, hwaited, hpid, hhash⟩ := reported_frame hr hc hcc
    have hreap : WaitServer.reapable { w with server := s } b.options c =
      w.reapable b.options c := reapable_congr hwaited hdead rfl rfl rfl
    exact h.asks hb hn hcw (hpar ▸ hparent) hhash hpid (reported_number hr _)
      (reported_number hr _) hreap

theorem NoLostWakeup.startOver {pid : Int} {options : WaitOptions} (h : NoLostWakeup w)
    (ho : Ordered w) (hp : w.tree.Usable p) (hs : w.startOver p pid options = some v) :
    NoLostWakeup v := by
  rcases startOver_cases ho.inv hp hs with rfl | ⟨child, s, -, hr, rfl⟩ | ⟨rfl, hnone⟩
  · exact h
  · exact h.reported hr
  · unfold block
    split
    · exact h
    · intro b hb hn c hc hparent hasks
      rcases mem_cons.mp hb with rfl | hb
      · exact Bool.noConfusion ((hnone c hc hparent hasks.1).symm.trans hasks.2)
      · exact h b hb hn c hc hparent hasks

theorem NoLostWakeup.resume {b : Blocked} {cancel : Bool} (h : NoLostWakeup w) (ho : Ordered w)
    (hb : b ∈ w.blocked) (hs : w.resume b cancel = some v) : NoLostWakeup v := by
  have herase : NoLostWakeup { w with blocked := w.blocked.erase b } :=
    fun a ha => h a (mem_of_mem_erase ha)
  unfold WaitServer.resume at hs
  split at hs
  · cases hs
    exact herase
  · rename_i hnot
    push Not at hnot
    have hlive : w.tree.dead b.proc = false := by simpa using hnot.1
    have hknown := (ho.procs b.proc (mem_map_of_mem hb)).resolve_right hnot.1
    exact herase.startOver (ho.erase b) ⟨hknown, hlive⟩ hs

theorem NoLostWakeup.traced (h : NoLostWakeup w) (hok : w.WakeOk (.markTraced p)) :
    NoLostWakeup { w with traced := update w.traced p true } := by
  intro b hb hn c hc hparent hasks
  replace hparent : w.tree.parent c = b.proc := hparent
  obtain ⟨hcares, hreap⟩ := hasks
  refine h b hb hn c hc hparent ⟨hcares, ?_⟩
  by_cases hcp : c = p
  · replace hcares : w.Cares b (w.pgidOf b.proc) (w.pgidOf p) p := hcp ▸ hcares
    have hstop := hok b hb hn (hcp ▸ hparent.symm) hcares
    rw [hcp] at hreap ⊢
    simp only [reapable, tree] at hreap hstop ⊢
    cases hs : w.stopped p with
    | true =>
      rw [hstop hs] at hreap
      cases hreap
    | false =>
      rw [hs] at hreap
      exact hreap
  · have hsame : WaitServer.reapable { w with traced := update w.traced p true } b.options c =
      w.reapable b.options c :=
      reapable_congr rfl rfl rfl rfl (update_of_ne hcp true w.traced)
    exact hsame ▸ hreap

theorem unwoken_exitAlerts {dead : Bool} {b : Blocked} (h : Waits w)
    (hb : b ∈ (w.exitAlerts p r dead).blocked) (hn : b.woken = false) :
    b ∈ w.blocked ∧ b.proc ≠ p ∧ (dead = true → b.proc ≠ w.tree.parent r) := by
  have hself : ∀ x : WaitServer, Waits x → b ∈ (x.wakeSelf p).blocked →
      b ∈ x.blocked ∧ b.proc ≠ p := by
    intro x hx hbx
    unfold wakeSelf at hbx
    split at hbx
    · exact unwoken_broadcast hbx hn
    · rename_i hwaiting
      refine ⟨hbx, fun heq => ?_⟩
      exact hwaiting (heq ▸ hx b hbx hn)
  unfold exitAlerts at hb
  split at hb
  · obtain ⟨hb, hne⟩ := hself _ h.alertParent hb
    obtain ⟨hb, hnr⟩ := unwoken_alertParent h hb hn
    exact ⟨hb, hne, fun _ => hnr⟩
  · rename_i hdead
    obtain ⟨hb, hne⟩ := hself _ h hb
    exact ⟨hb, hne, fun htrue => absurd htrue hdead⟩

theorem sameFlags_exitAlerts {dead : Bool} : SameFlags w (w.exitAlerts p r dead) := by
  unfold exitAlerts
  split
  · exact sameFlags_alertParent.trans sameFlags_wakeSelf
  · exact sameFlags_wakeSelf

theorem exited_frame {c : Nat} (he : Exited s f p r t) (hc : c ∈ t.tree.known) :
    c ∈ s.tree.known ∧ t.tree.parent c = (if c ∈ f p then r else s.tree.parent c) ∧
      t.tree.dead c = update s.tree.dead p true c ∧
      t.tree.waited c = update s.tree.waited p false c ∧ t.pid c = s.pid c ∧
      ∀ k, t.pidhash k = some c → s.pidhash k = some c := by
  obtain ⟨tree, hd, ht⟩ := he.result
  have hknown : tree.known = s.tree.known := hd.left.known
  have hparent := congrFun hd.left.parent
  have hdead : update tree.dead p true = update s.tree.dead p true := by rw [hd.left.dead]
  have hwaited : tree.waited = update s.tree.waited p false := hd.left.waited
  rcases ht with rfl | rfl
  · exact ⟨hknown ▸ hc, hparent c, congrFun hdead c, congrFun hwaited c, rfl, fun _ hk => hk⟩
  · have hreported : Reported (s.died p tree) p _ := .freed Server.died_dead
    have hcp : c ≠ p := by
      rintro rfl
      rw [Server.sameProcs_leavePgrp.tree] at hc
      exact absurd hc (notMem_erase c _)
    obtain ⟨hcw, hpar, hdd, hww, hpid, hhash⟩ := reported_frame hreported hc hcp
    exact ⟨hknown ▸ hcw, hpar.trans (hparent c), hdd.trans (congrFun hdead c),
      hww.trans (congrFun hwaited c), hpid, hhash⟩

theorem exited_parent (he : Exited s f p r t) :
    t.tree.parent = fun q => if q ∈ f p then r else s.tree.parent q := by
  obtain ⟨tree, hd, rfl | rfl⟩ := he.result
  · exact hd.left.parent
  · have hsame : ∀ x : Procs, Procs.SameButLinks x (x.unlink p) :=
      fun _ => Procs.sameButLinks_unlink
    rw [Server.sameProcs_leavePgrp.tree]
    exact (hsame _).parent.trans hd.left.parent

theorem exited_number (he : Exited s f p r t) (q : Nat) : groupNumber t q = groupNumber s q := by
  obtain ⟨tree, hd, rfl | rfl⟩ := he.result
  · rfl
  · have hreported : Reported (s.died p tree) p _ := .freed Server.died_dead
    exact reported_number hreported q

theorem exited_heir {c : Nat} (he : Exited s f p r t) (hc : c ∈ f p) :
    heir s.tree p = some r := by
  obtain ⟨tree, hd, -⟩ := he.result
  refine hd.heir.resolve_right fun hnil => ?_
  rw [hnil.1] at hc
  cases hc

theorem NoLostWakeup.exited (h : NoLostWakeup w) (ho : Ordered w) (hf : ListInv w.tree f)
    (hp : p ∈ w.tree.known) (he : Exited w.server f p r t) (hok : w.WakeOk (.taskDied p)) :
    NoLostWakeup (exitAlerts { w.alertParent p with server := t } p r
      ((f p).dropLast.any w.tree.dead)) := by
  obtain ⟨x, hx⟩ : ∃ x : WaitServer, x = { w.alertParent p with server := t } := ⟨_, rfl⟩
  rw [← hx]
  have hxwaits : Waits x := hx ▸ ho.waits.alertParent
  have hxserver : x.server = t := by rw [hx]
  have hxflags : SameFlags w x := by
    have hflags : SameFlags w (w.alertParent p) := sameFlags_alertParent
    rw [hx]
    exact ⟨hflags.stopped, hflags.continued, hflags.traced, hflags.rusage⟩
  obtain ⟨y, hy⟩ : ∃ y, y = x.exitAlerts p r ((f p).dropLast.any w.tree.dead) := ⟨_, rfl⟩
  have hyserver : y.server = t := by rw [hy, server_exitAlerts, hxserver]
  have hytree : y.tree = t.tree := congrArg Server.tree hyserver
  have hyflags : SameFlags w y := hy ▸ hxflags.trans sameFlags_exitAlerts
  rw [← hy]
  intro b hb hn c hc hparent
  rw [hytree] at hc hparent
  obtain ⟨hcw, hpar, hdead, hwaited, hpid, hhash⟩ := exited_frame he hc
  -- whoever has not been woken is neither the process nor its parent
  obtain ⟨hbx, hbp, hbr⟩ := unwoken_exitAlerts hxwaits (hy ▸ hb) hn
  rw [hx] at hbx
  obtain ⟨hbw, hbq⟩ := unwoken_alertParent ho.waits hbx hn
  rw [hpar] at hparent
  have hdying : y.reapable b.options c = (w.dying p).reapable b.options c := by
    refine reapable_congr ?_ ?_ (congrFun hyflags.stopped c) (congrFun hyflags.continued c)
      (congrFun hyflags.traced c)
    · rw [hytree]
      exact hwaited
    · rw [hytree]
      exact hdead
  by_cases hcf : c ∈ f p
  · rw [if_pos hcf] at hparent
    have hlive : ¬ w.tree.dead p = true := by
      rw [show w.tree.dead p = false from he.live]
      exact Bool.false_ne_true
    have hchild : w.tree.parent c = p := ((hf.mem_iff c p).mp hcf).2
    rcases hok.resolve_left hlive r (exited_heir he hcf) with
      heq | ⟨hself, child, hfirst, htrue⟩ | hnone
    · exact absurd (hparent.symm.trans heq) hbq
    · rw [isdead_ochild hf ⟨hp, he.live⟩ hfirst, Option.some.injEq] at htrue
      refine absurd hparent.symm fun heq => hbr htrue (heq.trans ?_)
      change r = x.server.tree.parent r
      rw [hxserver, exited_parent he]
      by_cases hrf : r ∈ f p
      · exact (if_pos hrf).symm
      · exact hself.symm.trans (if_neg hrf).symm
    · intro hasks
      refine hnone b hbw hn hparent.symm c hcw hchild ?_
      rw [hparent]
      change (w.dying p).Asks b (groupNumber w.server b.proc) (groupNumber w.server c) c
      rw [← exited_number he, ← exited_number he c, ← hyserver]
      refine hasks.mono (fun k hk => hhash k ?_) ?_ fun hreap => hdying ▸ hreap
      · rwa [hyserver] at hk
      · rw [hyserver]
        exact hpid
  · rw [if_neg hcf] at hparent
    have hcp : c ≠ p := by
      rintro rfl
      exact hbq hparent.symm
    have hsame : (w.dying p).reapable b.options c = w.reapable b.options c := by
      refine reapable_congr ?_ ?_ rfl rfl rfl
      · change update w.tree.waited p false c = _
        rw [update_of_ne hcp]
      · change update w.tree.dead p true c = _
        rw [update_of_ne hcp]
    refine h.asks hbw hn hcw hparent ?_ ?_ ?_ ?_ (hdying.trans hsame)
    · rw [hyserver]
      exact hhash
    · rw [hyserver]
      exact hpid
    · rw [hyserver]
      exact exited_number he _
    · rw [hyserver]
      exact exited_number he _

theorem NoLostWakeup.step (h : NoLostWakeup w) (ho : Ordered w) {c : WaitCall}
    (hok : InitLives c ∧ w.WakeOk c) (hs : w.step c = some v) : NoLostWakeup v := by
  obtain ⟨f, hf⟩ := ho.inv.lists
  cases c with
  | group c =>
    by_cases hc : ∃ p, c = .create p
    · obtain ⟨p, rfl⟩ := hc
      exact h.create ho hs
    · obtain ⟨t, par, num, ht, hr, rfl, hmove⟩ :=
        ho.group_cases (fun p heq => hc ⟨p, heq⟩) hs
      refine NoLostWakeup.regrouped ht hr ?_
      rcases hmove with ⟨rfl, rfl⟩ | hmove
      · exact h
      · exact hok.2 par num hmove
  | taskDied p =>
    simp only [WaitServer.step] at hs
    split at hs
    · rename_i hp
      rcases processHasExited_cases hf hp hok.1 hs with ⟨-, rfl⟩ | ⟨r, t, he, rfl⟩
      · exact h
      · exact h.exited ho hf hp he hok.2
    · cases hs
  | markExit p usage =>
    simp only [WaitServer.step] at hs
    split at hs
    · cases hs
      exact h
    · cases hs
  | markStop p =>
    simp only [WaitServer.step] at hs
    split at hs
    · cases hs
      refine h.wakeParent rfl rfl rfl rfl rfl rfl ho.waits fun c hc o => ?_
      have hwaited : update w.tree.waited p false c = w.tree.waited c := update_of_ne hc _ _
      have hstopped : update w.stopped p true c = w.stopped c := update_of_ne hc _ _
      have hcont : update w.continued p false c = w.continued c := update_of_ne hc _ _
      exact reapable_congr hwaited rfl hstopped hcont rfl
    · cases hs
  | markCont p =>
    simp only [WaitServer.step] at hs
    split at hs
    · cases hs
      refine h.wakeParent rfl rfl rfl rfl rfl rfl ho.waits fun c hc o => ?_
      have hwaited : update w.tree.waited p false c = w.tree.waited c := update_of_ne hc _ _
      have hstopped : update w.stopped p false c = w.stopped c := update_of_ne hc _ _
      have hcont : update w.continued p true c = w.continued c := update_of_ne hc _ _
      exact reapable_congr hwaited rfl hstopped hcont rfl
    · cases hs
  | markTraced p =>
    simp only [WaitServer.step] at hs
    split at hs
    · cases hs
      exact h.traced hok.2
    · cases hs
  | wait p pid options =>
    simp only [WaitServer.step] at hs
    split at hs
    · rename_i husable
      exact h.startOver ho husable hs
    · cases hs
  | resume b cancel =>
    simp only [WaitServer.step] at hs
    split at hs
    · rename_i hb
      exact h.resume ho hb hs
    · cases hs
  | broadcast p =>
    cases hs
    exact fun b hb hn => h b (unwoken_broadcast hb hn).1 hn

end Calls

theorem boot_ordered : Ordered boot :=
  ⟨Server.boot_inv, fun _ hq => absurd hq not_mem_nil, fun _ hb => absurd hb not_mem_nil⟩

/-- In every run in which init stays and no wake-up is missed, whoever is blocked and has not been
woken has no child to be told of. -/
theorem no_wakeup_lost {w : WaitServer}
    (h : Reach WaitServer.step (fun w c => InitLives c ∧ w.WakeOk c) boot w) : NoLostWakeup w := by
  obtain ⟨-, hw⟩ : Ordered w ∧ NoLostWakeup w := by
    refine h.invariant (fun w => Ordered w ∧ NoLostWakeup w)
      ⟨boot_ordered, fun _ hb => absurd hb not_mem_nil⟩ ?_
    rintro w c v ⟨ho, hw⟩ hok hs
    exact ⟨ho.step hok.1 hs, hw.step ho hok hs⟩
  exact hw

/-- `proc_wait` without options. -/
def plainWait : WaitOptions := ⟨false, false, true, false, false⟩

theorem no_wakeup_lost_run :
    ∃ w, Reach WaitServer.step (fun w c => InitLives c ∧ w.WakeOk c) boot w ∧ NoLostWakeup w ∧
      w.blocked = [⟨1, -1, plainWait, false⟩, ⟨2, -1, plainWait, true⟩] ∧ w.tree.dead 3 = true := by
  let calls : List WaitCall :=
    [.group (.child 2 3), .wait 2 (-1) plainWait, .wait 1 (-1) plainWait, .taskDied 3]
  obtain ⟨w, hw, hend⟩ : ∃ w, runLabels WaitServer.step boot calls = some w ∧
      w.blocked = [⟨1, -1, plainWait, false⟩, ⟨2, -1, plainWait, true⟩] ∧ w.tree.dead 3 = true :=
    exists_run calls _ (by decide)
  have hok : AdmitsLabels WaitServer.step (fun w c => InitLives c ∧ w.WakeOk c) boot calls := by
    refine ⟨⟨trivial, fun _ _ _ b hb => absurd hb not_mem_nil⟩, ⟨trivial, trivial⟩,
      ⟨trivial, trivial⟩, ⟨(by decide : 3 ≠ initProc), .inr ?_⟩, trivial⟩
    intro r hr
    obtain rfl : initProc = r := Option.some.inj hr
    exact .inr (.inr (by decide))
  have hreach := Reach.labels calls .start hok hw
  exact ⟨w, hreach, no_wakeup_lost hreach, hend⟩

/-- Init waits, and inherits the dead child of a process whose parent is not init. -/
theorem inherited_zombie_unnoticed :
    ¬ ∀ w, Reach WaitServer.step (fun _ c => InitLives c) boot w → NoLostWakeup w := by
  intro h
  let calls : List WaitCall := [.group (.child 2 3), .group (.create 4), .group (.child 3 4),
    .taskDied 4, .wait 1 (-1) plainWait, .taskDied 3]
  let b : Blocked := ⟨1, -1, plainWait, false⟩
  obtain ⟨w, hw, hb, hknown, hparent, hasks⟩ : ∃ w, runLabels WaitServer.step boot calls = some w ∧
      b ∈ w.blocked ∧ 4 ∈ w.tree.known ∧ w.tree.parent 4 = 1 ∧
        w.Asks b (w.pgidOf 1) (w.pgidOf 4) 4 :=
    exists_run calls _ (by decide)
  have hreach : Reach WaitServer.step (fun _ c => InitLives c) boot w :=
    Reach.labels calls .start ⟨trivial, trivial, trivial, (by decide : 4 ≠ initProc), trivial,
      (by decide : 3 ≠ initProc), trivial⟩ hw
  exact h w hreach b hb rfl 4 hknown hparent hasks

end Hurd.Proc.WaitServer
