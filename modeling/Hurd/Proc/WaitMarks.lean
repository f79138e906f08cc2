import Hurd.Proc.WaitSteps
import Hurd.Proc.WaitLog

/-!
# What a call marks

Which processes are known, dead, waited for, stopped and continued after a call. Nothing is assumed
of the lists of children and groups, so this holds even when init has exited.
-/

namespace Hurd.Proc

open Function Option

namespace Procs

/-- The processes that are known, and which are dead or waited for, are the same. -/
structure SameMarks (s t : Procs) : Prop where
  known : t.known = s.known
  dead : t.dead = s.dead
  waited : t.waited = s.waited

variable {s t u : Procs} {p q r c : Nat}

theorem SameMarks.trans (h : SameMarks s t) (h' : SameMarks t u) : SameMarks s u :=
  ⟨h'.known.trans h.known, h'.dead.trans h.dead, h'.waited.trans h.waited⟩

theorem SameButLinks.sameMarks (h : SameButLinks s t) : SameMarks s t :=
  ⟨h.known, h.dead, h.waited⟩

theorem sameMarks_linkFirst : SameMarks s (s.linkFirst p q) := ⟨rfl, rfl, rfl⟩

end Procs

section Tree

variable {s t : Procs} {p q r c : Nat}

theorem sameMarks_setParents {fuel z : Nat} (h : setParents r fuel c s = some (t, z)) :
    Procs.SameMarks s t ∧ t.taskNamespace = s.taskNamespace := by
  induction fuel generalizing c s with
  | zero => cases h
  | succ fuel ih =>
    simp only [setParents] at h
    split at h
    · cases h
      exact ⟨⟨rfl, rfl, rfl⟩, rfl⟩
    · obtain ⟨hm, hn⟩ := ih h
      exact ⟨⟨hm.known, hm.dead, hm.waited⟩, hn⟩

theorem sameMarks_reparent (h : reparent s p r c = some t) :
    Procs.SameMarks s t ∧ t.taskNamespace = s.taskNamespace := by
  unfold reparent at h
  split at h
  · cases h
  · rename_i v tp hset
    obtain ⟨hm, hn⟩ := sameMarks_setParents hset
    have hlinks : Procs.SameButLinks v t := by
      cases h
      exact ((Procs.sameButLinks_store.trans Procs.sameButLinks_storeBack).trans
        Procs.sameButLinks_store).trans Procs.sameButLinks_storeBack
    exact ⟨hm.trans hlinks.sameMarks, hlinks.taskNamespace.trans hn⟩

theorem sameMarks_leaveChildren (h : leaveChildren s p = some t) :
    Procs.SameMarks s t ∧
      ((t.taskNamespace p).isSome = true → (s.taskNamespace p).isSome = true) := by
  unfold leaveChildren at h
  split at h
  · cases h
    exact ⟨⟨rfl, rfl, rfl⟩, id⟩
  · split at h
    · rename_i hns
      split at h
      · cases h
      · split at h
        · exact ⟨⟨(sameMarks_reparent h).1.known, (sameMarks_reparent h).1.dead,
            (sameMarks_reparent h).1.waited⟩, fun _ => hns⟩
        · exact ⟨(sameMarks_reparent h).1, fun _ => hns⟩
    · obtain ⟨hm, hn⟩ := sameMarks_reparent h
      refine ⟨hm, fun hsome => ?_⟩
      rwa [hn] at hsome

theorem sameMarks_procChild (h : procChild s p c = some t) : Procs.SameMarks s t := by
  have hlinked : Procs.SameMarks s ((s.unlink c).linkFirst c p) :=
    Procs.sameButLinks_unlink.sameMarks.trans Procs.sameMarks_linkFirst
  unfold procChild at h
  split at h
  · cases h
    exact ⟨rfl, rfl, rfl⟩
  · split at h
    · cases h
    · simp only at h
      split at h
      · cases h
        exact ⟨hlinked.known, hlinked.dead, hlinked.waited⟩
      · cases h
        exact ⟨hlinked.known, hlinked.dead, hlinked.waited⟩

end Tree

namespace Server

variable {s t : Server} {p : Nat}

theorem SameProcs.sameMarks (h : SameProcs s t) : Procs.SameMarks s.tree t.tree := by
  rw [h.tree]
  exact ⟨rfl, rfl, rfl⟩

theorem sameMarks_step {c : GroupCall} (hc : ∀ p, c ≠ .create p) (hd : ∀ p, c ≠ .taskDied p)
    (hw : ∀ p q, c ≠ .wait p q) (hs : s.step c = some t) : Procs.SameMarks s.tree t.tree := by
  have hself : Procs.SameMarks s.tree s.tree := ⟨rfl, rfl, rfl⟩
  cases c with
  | create p => exact absurd rfl (hc p)
  | taskDied p => exact absurd rfl (hd p)
  | wait p q => exact absurd rfl (hw p q)
  | child parentp childp =>
    simp only [Server.step] at hs
    split at hs
    · unfold procChild at hs
      split at hs
      · cases hs
      · rename_i tree htree
        have htree := sameMarks_procChild htree
        split at hs
        · cases hs
          exact hself
        · simp only at hs
          split at hs
          · cases hs
            have hmoved : ∀ v : Server, ∀ pg, Procs.SameMarks v.tree
                (((v.leavePgrp childp).setPgrp childp pg).joinPgrp childp).tree :=
              fun _ _ => sameProcs_move.sameMarks
            exact htree.trans (hmoved { s with tree := tree } _)
          · cases hs
            exact htree
    · cases hs
  | setpgrp callerp pid pgid new =>
    simp only [Server.step] at hs
    split at hs
    · unfold procSetpgrp at hs
      split at hs
      · cases hs
        exact hself
      · split at hs
        · cases hs
          exact hself
        · unfold changePgrp at hs
          split at hs
          · split at hs
            · cases hs
              exact hself
            · cases hs
              exact sameProcs_move.sameMarks
          · split at hs
            · cases hs
            · cases hs
              exact (sameProcs_newPgrp.trans sameProcs_move).sameMarks
    · cases hs
  | setsid p sess pg =>
    simp only [Server.step] at hs
    split at hs
    · rcases procSetsid_cases hs with rfl | ⟨-, -, -, rfl⟩
      · exact hself
      · exact ((((sameProcs_leavePgrp.trans sameProcs_newSession).trans sameProcs_newPgrp).trans
          sameProcs_setPgrp).trans sameProcs_joinPgrp).sameMarks
    · cases hs
  | markExec p =>
    simp only [Server.step] at hs
    split at hs
    · cases hs
      exact hself
    · cases hs
  | makeTaskNamespace p notify =>
    simp only [Server.step, Proc.step] at hs
    split at hs
    · cases hs
    · rename_i tree htree
      cases hs
      split at htree
      · split at htree
        · cases htree
          exact hself
        · cases htree
          exact ⟨rfl, rfl, rfl⟩
      · cases htree

theorem marks_completeProc {n : Nat} : (s.completeProc p n).tree.known = insert p s.tree.known ∧
    (s.completeProc p n).tree.dead = update s.tree.dead p false ∧
      (s.completeProc p n).tree.waited = update s.tree.waited p false := by
  have hjoin : ∀ v : Server, Procs.SameMarks v.tree (v.joinPgrp p).tree :=
    fun _ => sameProcs_joinPgrp.sameMarks
  exact ⟨(hjoin _).known, (hjoin _).dead, (hjoin _).waited⟩

theorem marks_create (hs : s.step (.create p) = some t) :
    t.tree.known = insert p s.tree.known ∧ t.tree.dead = update s.tree.dead p false ∧
      t.tree.waited = update s.tree.waited p false := by
  simp only [Server.step] at hs
  split at hs
  · cases hs
  · split at hs
    · cases hs
    · rename_i n u hu
      cases hs
      obtain ⟨-, a, b, rfl⟩ := genpid_spec hu
      exact marks_completeProc

theorem boot_live (q : Nat) : boot.tree.dead q = false := by
  have hsetsid : Procs.SameMarks initOnly.tree (initOnly.bootSetsid initProc 1 1).tree :=
    ((sameProcs_newSession.trans sameProcs_newPgrp).trans
      (sameProcs_setPgrp.trans sameProcs_joinPgrp)).sameMarks
  have hdead : (initOnly.bootSetsid initProc 1 1).tree.dead = fun _ => false := hsetsid.dead
  have hfalse : ∀ p : Nat, update (fun _ : Nat => false) p false = fun _ => false :=
    fun p => update_eq_self p _
  rw [boot, marks_completeProc.2.1, marks_completeProc.2.1, hdead, hfalse, hfalse]

theorem marks_completeExit (hdead : s.tree.dead p = true)
    (hs : Server.completeExit { s with
      tree := { s.tree with waited := update s.tree.waited p true } } p = some t) :
    t.tree.known = s.tree.known.erase p ∧ t.tree.dead = s.tree.dead ∧
      t.tree.waited = update s.tree.waited p true := by
  have hsame : ∀ x : Procs, Procs.SameButLinks x (x.unlink p) :=
    fun _ => Procs.sameButLinks_unlink
  rw [completeExit_reap hdead hs, sameProcs_leavePgrp.tree]
  exact ⟨rfl, (hsame _).dead, (hsame _).waited⟩

theorem marks_exited (hlive : s.tree.dead p = false) (hs : s.processHasExited p = some t) :
    t.tree.dead = update s.tree.dead p true ∧
      (∃ x, t.tree.waited = update s.tree.waited p x) ∧
      (t.tree.known = s.tree.known ∨
        t.tree.known = s.tree.known.erase p ∧ (s.tree.taskNamespace p).isSome = true) := by
  unfold processHasExited at hs
  rw [if_neg (by rw [hlive]; exact Bool.false_ne_true)] at hs
  split at hs
  · cases hs
  · rename_i tree htree
    obtain ⟨hm, hn⟩ := sameMarks_leaveChildren htree
    have hdead : update tree.dead p true = update s.tree.dead p true := by rw [hm.dead]
    have hwaited : tree.waited = update s.tree.waited p false := hm.waited
    split at hs
    · rename_i hns
      obtain ⟨hk, hd, hw⟩ := marks_completeExit (s := s.died p tree) died_dead hs
      refine ⟨hd.trans hdead, ⟨true, ?_⟩, .inr ⟨?_, hn hns⟩⟩
      · refine hw.trans ?_
        change update tree.waited p true = _
        rw [hwaited, update_idem]
      · refine hk.trans ?_
        change tree.known.erase p = _
        rw [hm.known]
    · cases hs
      exact ⟨hdead, ⟨false, hwaited⟩, .inl hm.known⟩

end Server

@[ext] structure Mark where
  dead : Bool
  waited : Bool
  stopped : Bool
  continued : Bool

namespace WaitServer

/-- `p_dead`, `p_waited`, `p_stopped` and `p_continued` -/
def mark (w : WaitServer) (p : Nat) : Mark :=
  ⟨w.tree.dead p, w.tree.waited p, w.stopped p, w.continued p⟩

variable {w v : WaitServer} {p child : Nat} {pid : Int} {options : WaitOptions}

theorem mark_congr (hd : v.tree.dead = w.tree.dead) (hw : v.tree.waited = w.tree.waited)
    (hf : SameFlags w v) : v.mark = w.mark := by
  funext q
  simp only [mark, hd, hw, hf.stopped, hf.continued]

theorem mark_update {m : Mark} (hd : v.tree.dead = update w.tree.dead p m.dead)
    (hw : v.tree.waited = update w.tree.waited p m.waited)
    (hs : v.stopped = update w.stopped p m.stopped)
    (hc : v.continued = update w.continued p m.continued) : v.mark = update w.mark p m := by
  funext q
  rw [mark, hd, hw, hs, hc]
  by_cases hq : q = p
  · rw [hq, update_self, update_self, update_self, update_self, update_self]
  · rw [update_of_ne hq, update_of_ne hq, update_of_ne hq, update_of_ne hq, update_of_ne hq]
    rfl

theorem mark_create (hs : w.create p = some v) :
    v.mark = update w.mark p ⟨false, false, false, false⟩ ∧
      v.tree.known = insert p w.tree.known := by
  unfold create at hs
  split at hs
  · obtain ⟨t, ht, rfl⟩ := map_eq_some_iff.mp hs
    obtain ⟨hk, hd, hw⟩ := Server.marks_create ht
    exact ⟨mark_update hd hw rfl rfl, hk⟩
  · cases hs

theorem mark_wake {q : Nat} : (w.wake q).mark = w.mark :=
  mark_congr (by rw [tree, server_wake]; rfl) (by rw [tree, server_wake]; rfl) sameFlags_wake

theorem mark_markStop : (w.markStop p).mark =
    update w.mark p { w.mark p with waited := false, stopped := true, continued := false } := by
  refine mark_wake.trans (mark_update ?_ rfl rfl rfl)
  exact (update_eq_self p w.tree.dead).symm

theorem mark_markCont : (w.markCont p).mark =
    update w.mark p { w.mark p with waited := false, stopped := false, continued := true } := by
  refine mark_wake.trans (mark_update ?_ rfl rfl rfl)
  exact (update_eq_self p w.tree.dead).symm

theorem sameFlags_alertHeir {s : Procs} (hs : alertHeir w s p = some v) :
    SameFlags w v ∧ v.server = w.server := by
  unfold alertHeir at hs
  split at hs
  · cases hs
    exact ⟨⟨rfl, rfl, rfl, rfl⟩, rfl⟩
  · split at hs
    · split at hs
      · cases hs
        exact ⟨sameFlags_alertParent, server_alertParent⟩
      · cases hs
        exact ⟨⟨rfl, rfl, rfl, rfl⟩, rfl⟩
    · cases hs

theorem mark_exited (hlive : w.tree.dead p = false) (hs : w.processHasExited p = some v) :
    (∃ x, v.mark = update w.mark p { w.mark p with dead := true, waited := x }) ∧
      (v.tree.known = w.tree.known ∨
        v.tree.known = w.tree.known.erase p ∧ (w.tree.taskNamespace p).isSome = true) := by
  unfold processHasExited at hs
  rw [if_neg (by rw [hlive]; exact Bool.false_ne_true)] at hs
  split at hs
  · cases hs
  · rename_i t ht
    obtain ⟨hd, ⟨x, hw⟩, hk⟩ := Server.marks_exited hlive ht
    obtain ⟨u, hu, rfl⟩ := map_eq_some_iff.mp hs
    obtain ⟨hflags, hserver⟩ := sameFlags_alertHeir hu
    have hall : SameFlags w (u.wakeSelf p) := by
      have halert : SameFlags w { w.alertParent p with server := t } :=
        sameFlags_alertParent.trans (v := w.alertParent p) ⟨rfl, rfl, rfl, rfl⟩
      exact (halert.trans hflags).trans sameFlags_wakeSelf
    have htree : (u.wakeSelf p).tree = t.tree := by
      rw [tree, server_wakeSelf, hserver]
    refine ⟨⟨x, mark_update (htree ▸ hd) (htree ▸ hw) ?_ ?_⟩, ?_⟩
    · rw [hall.stopped]
      exact (update_eq_self p w.stopped).symm
    · rw [hall.continued]
      exact (update_eq_self p w.continued).symm
    · rw [htree]
      exact hk

/-- The child is reported, and freed if it is dead. -/
structure Reaps (w : WaitServer) (options : WaitOptions) (child : Nat) (v : WaitServer) : Prop where
  reapable : w.reapable options child = true
  mark : v.mark = if options.wnowait = true then w.mark else
    update w.mark child { w.mark child with waited := true }
  known : v.tree.known = if options.wnowait = false ∧ w.tree.dead child = true then
    w.tree.known.erase child else w.tree.known

theorem reaps_reap (hreap : w.reapable options child = true)
    (hs : w.reap options child = some v) : Reaps w options child v := by
  unfold reap at hs
  by_cases hnowait : options.wnowait = true
  · rw [if_pos hnowait] at hs
    cases hs
    refine ⟨hreap, (if_pos hnowait).symm, (if_neg fun hand => ?_).symm⟩
    rw [hand.1] at hnowait
    cases hnowait
  · rw [if_neg hnowait] at hs
    have hno : options.wnowait = false := by simpa using hnowait
    by_cases hdead : w.tree.dead child = true
    · rw [if_pos hdead] at hs
      obtain ⟨t, ht, rfl⟩ := map_eq_some_iff.mp hs
      obtain ⟨hk, hd, hw⟩ := Server.marks_completeExit hdead ht
      refine ⟨hreap, ?_, hk.trans (if_pos ⟨hno, hdead⟩).symm⟩
      rw [if_neg hnowait]
      refine mark_update ?_ hw (update_eq_self child w.stopped).symm
        (update_eq_self child w.continued).symm
      exact hd.trans (update_eq_self child w.tree.dead).symm
    · rw [if_neg hdead] at hs
      cases hs
      refine ⟨hreap, ?_, (if_neg fun hand => hdead hand.2).symm⟩
      rw [if_neg hnowait]
      exact mark_update (update_eq_self child w.tree.dead).symm rfl
        (update_eq_self child w.stopped).symm (update_eq_self child w.continued).symm

theorem mark_block : (w.block p pid options).mark = w.mark := by
  unfold block
  split <;> rfl

theorem startOver_answer (hs : w.startOver p pid options = some v) :
    (∃ child, w.answer p pid options = some child ∧ Reaps w options child v) ∨
      w.answer p pid options = none ∧ v.mark = w.mark ∧ v.tree.known = w.tree.known := by
  have hblock : (w.block p pid options).tree = w.tree := by
    rw [tree, server_block]
    rfl
  unfold startOver at hs
  unfold answer
  cases hfirst : w.tree.ochild p with
  | none =>
    simp only [hfirst] at hs
    cases hs
    exact .inr ⟨rfl, rfl, rfl⟩
  | some first =>
    simp only [hfirst] at hs ⊢
    by_cases hpos : 0 < pid
    · rw [if_pos hpos] at hs ⊢
      split at hs
      · rename_i hnone
        cases hs
        rw [hnone]
        exact .inr ⟨rfl, rfl, rfl⟩
      · rename_i child hchild
        rw [hchild]
        split at hs
        · rename_i hparent
          cases hs
          exact .inr ⟨by simp [hparent], rfl, rfl⟩
        · rename_i hparent
          split at hs
          · rename_i hreap
            exact .inl ⟨child, by simp [not_not.mp hparent, hreap], reaps_reap hreap hs⟩
          · rename_i hreap
            cases hs
            exact .inr ⟨by simp [hreap], mark_block, congrArg Procs.known hblock⟩
    · rw [if_neg hpos] at hs ⊢
      split at hs
      · cases hs
      · rename_i children hchildren
        rw [hchildren]
        split at hs
        · rename_i child hfind
          have hboth := List.find?_some hfind
          have hreap := (Bool.and_eq_true_iff.mp hboth).2
          exact .inl ⟨child, hfind, reaps_reap hreap hs⟩
        · rename_i hnone
          refine .inr ⟨hnone, ?_⟩
          split at hs
          · cases hs
            exact ⟨mark_block, congrArg Procs.known hblock⟩
          · cases hs
            exact ⟨rfl, rfl⟩

theorem request_answer {c : WaitCall} {asks : Nat × WaitOptions} (hc : c.request = some asks)
    (hs : w.step c = some v) :
    (∃ child, c.reported w = some child ∧ Reaps w asks.2 child v) ∨
      c.reported w = none ∧ v.mark = w.mark ∧ v.tree.known = w.tree.known := by
  cases c with
  | wait p pid options =>
    cases hc
    simp only [WaitServer.step] at hs
    split at hs
    · exact startOver_answer hs
    · cases hs
  | resume b cancel =>
    cases hc
    simp only [WaitServer.step, WaitServer.resume] at hs
    simp only [WaitCall.reported]
    split at hs
    · by_cases hend : w.tree.dead b.proc = true ∨ cancel = true
      · rw [if_pos hend] at hs ⊢
        cases hs
        exact .inr ⟨rfl, rfl, rfl⟩
      · rw [if_neg hend] at hs ⊢
        rcases startOver_answer hs with ⟨child, ha, hr⟩ | hnone
        · exact .inl ⟨child, ha, hr.reapable, hr.mark, hr.known⟩
        · exact .inr hnone
    · cases hs
  | _ => cases hc

end WaitServer

end Hurd.Proc
