import Hurd.Framework.Ledger
import Hurd.Proc.WaitWakeup

/-!
# What the dead children of a process have used

`p_child_rusage` of a process is what those have used who died as its descendants, each counted
once: whoever dies hands its usage to the parent that it then has, together with all that has been
handed to itself.
-/

namespace Hurd.Proc

open Function List

/-- The server with a ledger of deaths. -/
structure Audit where
  server : WaitServer
  /-- The how manieth process has this memory. -/
  inst : Nat → Nat
  count : Nat
  log : List (Handing Nat Rusage)

namespace Audit

/-- The ledger after a call that has made the server `w`. -/
def record (a : Audit) (w : WaitServer) : WaitCall → Audit
  | .group (.create p) => ⟨w, update a.inst p a.count, a.count + 1, a.log⟩
  | .taskDied p =>
      if a.server.tree.dead p = true then { a with server := w }
      else { a with
        server := w
        log := ⟨a.inst p, a.inst (a.server.tree.parent p), a.server.rusage p⟩ :: a.log }
  | _ => { a with server := w }

def step (a : Audit) (c : WaitCall) : Option Audit :=
  (a.server.step c).map fun w => a.record w c

/-- The processes of `WaitServer.boot`. -/
def boot : Audit := ⟨.boot, id, 4, []⟩

/-- Every death is counted once, with each process that it came to. -/
def UsageCounted (a : Audit) : Prop :=
  Ledger.Once a.log ∧
    ∀ q ∈ a.server.tree.known, a.server.childRusage q = Ledger.total a.log (a.inst q)

end Audit

namespace WaitServer

variable (w : WaitServer)

/-- Where only the usage of the dead is counted: a process that dies is not its own parent, and if it
leaves a child that is dead and not the last, then neither its heir nor a dead descendant of the heir
has used anything. -/
def UsageOk : WaitCall → Prop
  | .taskDied p => w.tree.dead p = true ∨ w.tree.parent p ≠ p ∧
      ∀ child ∈ w.tree.ochild p, isdead w.tree (w.tree.known.card + 1) child = some true →
        ∀ r ∈ heir w.tree p, w.rusage r = 0 ∧ w.childRusage r = 0 ∧
          (w.tree.parent p = r → w.rusage p = 0 ∧ w.childRusage p = 0)
  | _ => True

section Alerts

variable {w} {p r : Nat} {f : Nat → List Nat} {t : Server}

theorem childRusage_wake {q : Nat} : (w.wake q).childRusage = w.childRusage := by
  unfold wake
  split <;> rfl

theorem childRusage_alertParent (hne : w.tree.parent p ≠ p) :
    (w.alertParent p).childRusage = update w.childRusage (w.tree.parent p)
      (w.childRusage (w.tree.parent p) + (w.rusage p + w.childRusage p)) := by
  have hself : update w.childRusage (w.tree.parent p)
      ((w.childRusage (w.tree.parent p)).add (w.rusage p)) p = w.childRusage p :=
    update_of_ne hne.symm _ _
  unfold alertParent
  rw [childRusage_wake]
  simp only [addDescendants, addChildRusage, update_idem, update_self, hself]
  congr 1
  exact add_assoc (w.childRusage _) (w.rusage p) (w.childRusage p)

theorem childRusage_alertParent_zero (hu : w.rusage p = 0) (hc : w.childRusage p = 0) :
    (w.alertParent p).childRusage = w.childRusage := by
  have hzero : w.addChildRusage (w.tree.parent p) 0 = w := by
    unfold addChildRusage
    have hadd : (w.childRusage (w.tree.parent p)).add 0 = w.childRusage (w.tree.parent p) :=
      add_zero _
    rw [hadd, update_eq_self]
  unfold alertParent
  rw [childRusage_wake, hu, hzero]
  unfold addDescendants
  rw [hc, hzero]

theorem childRusage_wakeSelf : (w.wakeSelf p).childRusage = w.childRusage := by
  unfold wakeSelf
  split <;> rfl

theorem childRusage_exited (hf : ListInv w.tree f) (hp : p ∈ w.tree.known)
    (he : Exited w.server f p r t) (hok : w.UsageOk (.taskDied p)) :
    w.tree.parent p ≠ p ∧ (exitAlerts { w.alertParent p with server := t } p r
      ((f p).dropLast.any w.tree.dead)).childRusage = update w.childRusage (w.tree.parent p)
        (w.childRusage (w.tree.parent p) + (w.rusage p + w.childRusage p)) := by
  have hlive : w.tree.dead p = false := he.live
  obtain ⟨hne, hheir⟩ := hok.resolve_left (by rw [hlive]; exact Bool.false_ne_true)
  have halert := childRusage_alertParent hne
  refine ⟨hne, ?_⟩
  unfold exitAlerts
  rw [childRusage_wakeSelf]
  split
  · rename_i hdead
    -- the process has a child, so that it has an heir
    obtain ⟨c, hc⟩ : ∃ c, w.tree.ochild p = some c := by
      cases hc : w.tree.ochild p with
      | none =>
        rw [hf.childless ⟨hp, hlive⟩ hc] at hdead
        cases hdead
      | some c => exact ⟨c, rfl⟩
    have hmem : ∃ c, c ∈ f p := by
      obtain ⟨c, hmem, -⟩ := any_eq_true.mp hdead
      exact ⟨c, mem_of_mem_dropLast hmem⟩
    obtain ⟨x, hx⟩ := hmem
    have hisdead := isdead_ochild hf ⟨hp, hlive⟩ hc
    rw [hdead] at hisdead
    obtain ⟨hu, hzero, hparent⟩ := hheir c hc hisdead r (exited_heir he hx)
    have hflags : SameFlags w (w.alertParent p) := sameFlags_alertParent
    refine (childRusage_alertParent_zero ?_ ?_).trans halert
    · exact (congrFun hflags.rusage r).trans hu
    · change (w.alertParent p).childRusage r = 0
      rw [halert]
      by_cases hr : w.tree.parent p = r
      · obtain ⟨hup, hcp⟩ := hparent hr
        rw [hr, update_self, hzero, hup, hcp, add_zero, add_zero]
      · rw [update_of_ne (Ne.symm hr), hzero]
  · exact halert

end Alerts

end WaitServer

namespace Audit

open WaitServer Ledger

/-- What holds of the server and the ledger between calls. -/
structure Accounts (a : Audit) : Prop where
  ordered : Ordered a.server
  inst_inj : ∀ p ∈ a.server.tree.known, ∀ q ∈ a.server.tree.known, a.inst p = a.inst q → p = q
  inst_lt : ∀ q ∈ a.server.tree.known, a.inst q < a.count
  /-- Who lives has handed nothing on. -/
  alive : ∀ q ∈ a.server.tree.known, a.server.tree.dead q = false → ∀ d ∈ a.log, d.giver ≠ a.inst q
  taker_lt : ∀ d ∈ a.log, d.giver < a.count ∧ d.taker < a.count
  once : Once a.log
  counts : ∀ q ∈ a.server.tree.known, a.server.childRusage q = total a.log (a.inst q)

section Step

variable {a b : Audit} {v : WaitServer} {p : Nat}

theorem Accounts.keep (h : Accounts a) (ho : Ordered v)
    (hk : ∀ q ∈ v.tree.known, q ∈ a.server.tree.known)
    (hd : ∀ q ∈ v.tree.known, v.tree.dead q = a.server.tree.dead q)
    (hc : v.childRusage = a.server.childRusage) : Accounts { a with server := v } where
  ordered := ho
  inst_inj p hp q hq := h.inst_inj p (hk p hp) q (hk q hq)
  inst_lt q hq := h.inst_lt q (hk q hq)
  alive q hq hlive := h.alive q (hk q hq) ((hd q hq).symm.trans hlive)
  taker_lt := h.taker_lt
  once := h.once
  counts q hq := (congrFun hc q).trans (h.counts q (hk q hq))

theorem Accounts.create (h : Accounts a) (hs : a.server.create p = some v) :
    Accounts ⟨v, update a.inst p a.count, a.count + 1, a.log⟩ := by
  obtain ⟨ho, t, hc, -, hv⟩ := h.ordered.create hs
  have htree : v.tree = t.tree := by rw [hv]; rfl
  have hknown : ∀ q ∈ v.tree.known, q = p ∨ q ≠ p ∧ q ∈ a.server.tree.known := by
    intro q hq
    rw [htree, hc.known, Finset.mem_insert] at hq
    by_cases hqp : q = p
    · exact .inl hqp
    · exact .inr ⟨hqp, hq.resolve_left hqp⟩
  have hchild : v.childRusage = update a.server.childRusage p 0 := by rw [hv]; rfl
  refine ⟨ho, ?_, ?_, ?_, ?_, h.once, ?_⟩
  · intro x hx q hq heq
    replace heq : update a.inst p a.count x = update a.inst p a.count q := heq
    rcases hknown x hx with rfl | ⟨hxp, hxa⟩
    · rcases hknown q hq with rfl | ⟨hqp, hq⟩
      · rfl
      · rw [update_self, update_of_ne hqp] at heq
        exact absurd heq (h.inst_lt q hq).ne'
    · rcases hknown q hq with rfl | ⟨hqp, hq⟩
      · rw [update_self, update_of_ne hxp] at heq
        exact absurd heq (h.inst_lt x hxa).ne
      · rw [update_of_ne hxp, update_of_ne hqp] at heq
        exact h.inst_inj x hxa q hq heq
  · intro q hq
    change update a.inst p a.count q < a.count + 1
    rcases hknown q hq with rfl | ⟨hqp, hq⟩
    · rw [update_self]
      exact Nat.lt_succ_self _
    · rw [update_of_ne hqp]
      exact Nat.lt_succ_of_lt (h.inst_lt q hq)
  · intro q hq hlive d hd
    change d.giver ≠ update a.inst p a.count q
    rcases hknown q hq with rfl | ⟨hqp, hq⟩
    · rw [update_self]
      exact (h.taker_lt d hd).1.ne
    · rw [update_of_ne hqp]
      replace hlive : v.tree.dead q = false := hlive
      rw [htree, hc.dead, update_of_ne hqp] at hlive
      exact h.alive q hq hlive d hd
  · intro d hd
    exact ⟨Nat.lt_succ_of_lt (h.taker_lt d hd).1, Nat.lt_succ_of_lt (h.taker_lt d hd).2⟩
  · intro q hq
    replace hchild := congrFun hchild q
    change v.childRusage q = total a.log (update a.inst p a.count q)
    rcases hknown q hq with rfl | ⟨hqp, hq⟩
    · rw [update_self] at hchild ⊢
      rw [hchild, total_eq_zero fun d hd => (h.taker_lt d hd).2.ne]
    · rw [update_of_ne hqp] at hchild ⊢
      rw [hchild, h.counts q hq]

theorem Accounts.exited {f : Nat → List Nat} {r : Nat} {t : Server} (h : Accounts a)
    (hf : ListInv a.server.tree f) (hp : p ∈ a.server.tree.known)
    (he : Exited a.server.server f p r t) (hok : a.server.UsageOk (.taskDied p)) :
    Accounts ⟨exitAlerts { a.server.alertParent p with server := t } p r
      ((f p).dropLast.any a.server.tree.dead), a.inst, a.count,
        ⟨a.inst p, a.inst (a.server.tree.parent p), a.server.rusage p⟩ :: a.log⟩ := by
  have hlive : a.server.tree.dead p = false := he.live
  obtain ⟨hne, hchild⟩ := childRusage_exited hf hp he hok
  have ho : Ordered (exitAlerts { a.server.alertParent p with server := t } p r
    ((f p).dropLast.any a.server.tree.dead)) := h.ordered.exited hp he
  obtain ⟨v, hv⟩ : ∃ v, v = exitAlerts { a.server.alertParent p with server := t } p r
    ((f p).dropLast.any a.server.tree.dead) := ⟨_, rfl⟩
  rw [← hv] at hchild ho ⊢
  have htree : v.tree = t.tree := by
    change v.server.tree = t.tree
    rw [hv, server_exitAlerts]
  have hframe : ∀ q ∈ v.tree.known, q ∈ a.server.tree.known ∧
      v.tree.dead q = update a.server.tree.dead p true q := by
    intro q hq
    rw [htree] at hq ⊢
    obtain ⟨hk, -, hd, -⟩ := exited_frame he hq
    exact ⟨hk, hd⟩
  -- neither the process nor its parent has handed anything on before
  obtain ⟨hpk, hplive⟩ := hf.parents p hp
  have hgiver := h.alive p hp hlive
  have htaker := h.alive _ hpk hplive
  have hdiff : a.inst p ≠ a.inst (a.server.tree.parent p) :=
    fun heq => hne (h.inst_inj p hp _ hpk heq).symm
  refine ⟨ho, fun x hx q hq => h.inst_inj x (hframe x hx).1 q (hframe q hq).1,
    fun q hq => h.inst_lt q (hframe q hq).1, ?_, ?_, ?_, ?_⟩
  · intro q hq hlive' d hd
    obtain ⟨hk, hdead⟩ := hframe q hq
    replace hlive' := hdead.symm.trans hlive'
    by_cases hqp : q = p
    · rw [hqp, update_self] at hlive'
      cases hlive'
    · rw [update_of_ne hqp] at hlive'
      rcases mem_cons.mp hd with rfl | hd
      · exact fun heq => hqp (h.inst_inj p hp q hk heq).symm
      · exact h.alive q hk hlive' d hd
  · intro d hd
    rcases mem_cons.mp hd with rfl | hd
    · exact ⟨h.inst_lt p hp, h.inst_lt _ hpk⟩
    · exact h.taker_lt d hd
  · refine nodup_cons.mpr ⟨fun hmem => ?_, h.once⟩
    obtain ⟨d, hd, heq⟩ := mem_map.mp hmem
    exact hgiver d hd heq
  · intro q hq
    obtain ⟨hk, -⟩ := hframe q hq
    refine (congrFun hchild q).trans ?_
    let d : Handing Nat Rusage := ⟨a.inst p, a.inst (a.server.tree.parent p), a.server.rusage p⟩
    by_cases hqp : q = a.server.tree.parent p
    · rw [hqp, update_self, h.counts _ hpk, h.counts p hp]
      exact (total_cons_taker (d := d) hgiver htaker hdiff h.once).symm
    · rw [update_of_ne hqp, h.counts q hk]
      exact (total_cons_other (d := d) hgiver htaker hdiff
        fun heq => hqp (h.inst_inj q hk _ hpk heq)).symm

theorem reported_dead {s t : Server} {child : Nat} (hr : Reported s child t) {q : Nat}
    (hq : q ∈ t.tree.known) : q ∈ s.tree.known ∧ t.tree.dead q = s.tree.dead q := by
  cases hr with
  | nothing => exact ⟨hq, rfl⟩
  | living => exact ⟨hq, rfl⟩
  | freed hdead =>
    have hsame : ∀ x : Procs, Procs.SameButLinks x (x.unlink child) :=
      fun _ => Procs.sameButLinks_unlink
    rw [Server.sameProcs_leavePgrp.tree] at hq ⊢
    exact ⟨Finset.mem_of_mem_erase hq, congrFun (hsame _).dead q⟩

theorem Accounts.startOver {w : WaitServer} {pid : Int} {options : WaitOptions}
    (h : Accounts { a with server := w }) (hp : w.tree.Usable p)
    (hs : w.startOver p pid options = some v) : Accounts { a with server := v } := by
  have ho : Ordered v := h.ordered.startOver hp hs
  rcases startOver_cases h.ordered.inv hp hs with rfl | ⟨child, s, -, hr, rfl⟩ | ⟨rfl, -⟩
  · exact h
  · exact h.keep ho (fun q hq => (reported_dead hr hq).1) (fun q hq => (reported_dead hr hq).2) rfl
  · have hserver : (w.block p pid options).server = w.server := server_block
    have hchild : (w.block p pid options).childRusage = w.childRusage := by
      unfold block
      split <;> rfl
    have htree : (w.block p pid options).tree = w.tree := congrArg Server.tree hserver
    refine h.keep ho (fun q hq => ?_) (fun q hq => ?_) hchild
    · rwa [htree] at hq
    · rw [htree]

theorem Accounts.resume {blocked : Blocked} {cancel : Bool} (h : Accounts a)
    (hb : blocked ∈ a.server.blocked) (hs : a.server.resume blocked cancel = some v) :
    Accounts { a with server := v } := by
  have herase : Accounts { a with
      server := { a.server with blocked := a.server.blocked.erase blocked } } :=
    h.keep (h.ordered.erase blocked) (fun _ hq => hq) (fun _ _ => rfl) rfl
  unfold WaitServer.resume at hs
  split at hs
  · cases hs
    exact herase
  · rename_i hnot
    push Not at hnot
    have hlive : a.server.tree.dead blocked.proc = false := by simpa using hnot.1
    have hknown :=
      (h.ordered.procs blocked.proc (mem_map_of_mem hb)).resolve_right hnot.1
    exact herase.startOver ⟨hknown, hlive⟩ hs

theorem Accounts.wake {w : WaitServer} {q : Nat} (h : Accounts a) (ho : Ordered (w.wake q))
    (hk : w.tree.known = a.server.tree.known) (hd : w.tree.dead = a.server.tree.dead)
    (hc : w.childRusage = a.server.childRusage) : Accounts { a with server := w.wake q } := by
  have htree : (w.wake q).tree = w.tree := congrArg Server.tree server_wake
  refine h.keep ho (fun x hx => ?_) (fun x _ => ?_) (childRusage_wake.trans hc)
  · rwa [htree, hk] at hx
  · rw [htree, hd]

theorem Accounts.step (h : Accounts a) {c : WaitCall} (hok : InitLives c ∧ a.server.UsageOk c)
    (hs : a.step c = some b) : Accounts b := by
  obtain ⟨v, hv, rfl⟩ := Option.map_eq_some_iff.mp hs
  have ho := h.ordered.step hok.1 hv
  obtain ⟨f, hf⟩ := h.ordered.inv.lists
  cases c with
  | group c =>
    by_cases hc : ∃ p, c = .create p
    · obtain ⟨p, rfl⟩ := hc
      exact h.create hv
    · obtain ⟨t, par, num, -, hr, rfl, -⟩ :=
        h.ordered.group_cases (fun p heq => hc ⟨p, heq⟩) hv
      have hkeep : Accounts { a with server := { a.server with server := t } } :=
        h.keep ho (fun q hq => hr.known ▸ hq) (fun q _ => congrFun hr.dead q) rfl
      cases c with
      | create p => exact absurd ⟨p, rfl⟩ hc
      | _ => exact hkeep
  | taskDied p =>
    simp only [WaitServer.step] at hv
    split at hv
    · rename_i hp
      unfold record
      rcases processHasExited_cases hf hp hok.1 hv with ⟨hdead, rfl⟩ | ⟨r, t, he, rfl⟩
      · simp only [if_pos hdead]
        exact h
      · have hlive : ¬ a.server.tree.dead p = true := by
          rw [show a.server.tree.dead p = false from he.live]
          exact Bool.false_ne_true
        simp only [if_neg hlive]
        exact h.exited hf hp he hok.2
    · cases hv
  | markExit p usage =>
    simp only [WaitServer.step] at hv
    split at hv
    · cases hv
      exact h.keep ho (fun _ hq => hq) (fun _ _ => rfl) rfl
    · cases hv
  | markStop p =>
    simp only [WaitServer.step] at hv
    split at hv
    · cases hv
      exact h.wake ho rfl rfl rfl
    · cases hv
  | markCont p =>
    simp only [WaitServer.step] at hv
    split at hv
    · cases hv
      exact h.wake ho rfl rfl rfl
    · cases hv
  | markTraced p =>
    simp only [WaitServer.step] at hv
    split at hv
    · cases hv
      exact h.keep ho (fun _ hq => hq) (fun _ _ => rfl) rfl
    · cases hv
  | wait p pid options =>
    simp only [WaitServer.step] at hv
    split at hv
    · rename_i husable
      exact h.startOver husable hv
    · cases hv
  | resume blocked cancel =>
    simp only [WaitServer.step] at hv
    split at hv
    · rename_i hb
      exact h.resume hb hv
    · cases hv
  | broadcast p =>
    cases hv
    exact h.keep ho (fun _ hq => hq) (fun _ _ => rfl) rfl

end Step

theorem boot_accounts : Accounts boot where
  ordered := boot_ordered
  inst_inj _ _ _ _ heq := heq
  inst_lt := by decide
  alive _ _ _ _ hd := absurd hd not_mem_nil
  taker_lt _ hd := absurd hd not_mem_nil
  once := nodup_nil
  counts _ _ := rfl

/-- In every run in which init stays and nobody has used anything that is handed on for an heir,
every usage is counted once, with each process that it came to. -/
theorem usage_counted {a : Audit}
    (h : Reach Audit.step (fun a c => InitLives c ∧ a.server.UsageOk c) boot a) :
    UsageCounted a := by
  have ha : Accounts a := h.invariant Accounts boot_accounts fun _ _ _ ha hok hs => ha.step hok hs
  exact ⟨ha.once, ha.counts⟩

/-- A usage with one of every counter. -/
def oneOfEach : Rusage := ⟨.zero, .zero, fun _ => 1⟩

theorem usage_counted_run :
    ∃ a, Reach Audit.step (fun a c => InitLives c ∧ a.server.UsageOk c) boot a ∧ UsageCounted a ∧
      (a.server.childRusage 1).counters .minflt = 2 ∧ a.log.length = 2 := by
  let calls : List WaitCall := [.group (.child 2 3), .markExit 3 oneOfEach, .taskDied 3,
    .markExit 2 oneOfEach, .taskDied 2]
  obtain ⟨a, ha, hend⟩ : ∃ a, runLabels Audit.step boot calls = some a ∧
      (a.server.childRusage 1).counters .minflt = 2 ∧ a.log.length = 2 :=
    exists_run calls _ (by decide)
  have hok : AdmitsLabels Audit.step (fun a c => InitLives c ∧ a.server.UsageOk c) boot calls := by
    refine ⟨⟨trivial, trivial⟩, ⟨trivial, trivial⟩, ⟨(by decide : 3 ≠ initProc), .inr ⟨?_, ?_⟩⟩,
      ⟨trivial, trivial⟩, ⟨(by decide : 2 ≠ initProc), .inr ⟨?_, ?_⟩⟩, trivial⟩
    · decide
    · intro child hchild
      have hnone : (none : Option Nat) = some child := hchild
      cases hnone
    · decide
    · intro child hchild hdead
      obtain rfl : 3 = child := Option.some.inj hchild
      exact absurd hdead (by decide)
  have hreach := Reach.labels calls .start hok ha
  exact ⟨a, hreach, usage_counted hreach, hend⟩

/-- A process dies, and then its parent, which has another child. What init has been handed for the
process is added once more. -/
theorem usage_counted_twice :
    ¬ ∀ a, Reach Audit.step (fun _ c => InitLives c) boot a → UsageCounted a := by
  intro h
  let calls : List WaitCall := [.group (.create 4), .group (.child 2 3), .group (.child 2 4),
    .markExit 4 oneOfEach, .taskDied 4, .taskDied 2]
  let minflt : Rusage →+ Int :=
    { toFun := fun u => u.counters .minflt, map_zero' := rfl, map_add' := fun _ _ => rfl }
  obtain ⟨a, ha, hknown, hinit, hnonneg, hsum⟩ : ∃ a, runLabels Audit.step boot calls = some a ∧
      1 ∈ a.server.tree.known ∧ (a.server.childRusage 1).counters .minflt = 2 ∧
      (∀ d ∈ a.log, 0 ≤ d.amount.counters .minflt) ∧
      (a.log.map fun d => d.amount.counters .minflt).sum = 1 :=
    exists_run calls _ (by decide)
  have hreach : Reach Audit.step (fun _ c => InitLives c) boot a :=
    Reach.labels calls .start ⟨trivial, trivial, trivial, trivial, (by decide : 4 ≠ initProc),
      (by decide : 2 ≠ initProc), trivial⟩ ha
  have hcounts := (h a hreach).2 1 hknown
  have hle : minflt (total a.log (a.inst 1)) ≤ (a.log.map fun d => minflt d.amount).sum :=
    total_le minflt hnonneg
  rw [← hcounts] at hle
  have htwo : minflt (a.server.childRusage 1) = 2 := hinit
  have hone : (a.log.map fun d => minflt d.amount).sum = 1 := hsum
  rw [htwo, hone] at hle
  exact absurd hle (by decide)

end Audit

end Hurd.Proc
