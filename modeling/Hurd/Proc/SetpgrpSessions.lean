import Hurd.Proc.Groups

/-!
# The session of a process that changes its group

`S_proc_setpgrp` compares the session of a group that exists with that of the caller, unless the
group has the number of the process itself.
-/

namespace Hurd.Proc.Server

open Function Option

/-- The process stays in its session, and a leader of a session is not moved. -/
def SetpgrpKeeps (s : Server) : GroupCall → Prop
  | .setpgrp callerp pid pgid new =>
      ∀ p ∈ s.setpgrpProc callerp pid, ∀ t ∈ s.step (.setpgrp callerp pid pgid new),
        t.session (t.pgrp p) = s.session (s.pgrp p) ∧
          (s.sid (s.session (s.pgrp p)) = s.pid p → t.pgrp p = s.pgrp p)
  | _ => True

instance setpgrpKeepsDecidable (s : Server) : (c : GroupCall) → Decidable (SetpgrpKeeps s c)
  | .setpgrp _ _ _ _ => inferInstanceAs (Decidable (∀ p ∈ _, ∀ t ∈ _, _ ∧ (_ → _)))
  | .create _ | .child _ _ | .setsid _ _ _ | .markExec _ | .makeTaskNamespace _ _ | .taskDied _
  | .wait _ _ => .isTrue trivial

/-- Where the checks let a process into the group that has its own number, the group is in the session
of the caller. -/
def OwnGroupInside (s : Server) : GroupCall → Prop
  | .setpgrp callerp pid pgid _ =>
      s.tree.Usable callerp → ∀ p ∈ s.setpgrpProc callerp pid,
        ¬ s.SetpgrpRefused callerp p (s.setpgrpPgid p pgid) → s.setpgrpPgid p pgid = s.pid p →
        ∀ pg ∈ find s.pghash (s.setpgrpPgid p pgid), s.session pg = s.session (s.pgrp callerp)
  | _ => True

section Session

variable {s t : Server} {callerp p pg n new : Nat} {pid pgid : Int}

theorem session_newPgrp {sess : Nat} : (s.newPgrp new n sess).session new = sess := by
  rw [session, newPgrp, Roster.owner_join, Roster.owner_setOwner, update_self]

theorem session_changePgrp {found : Option Nat} (ht : s.changePgrp p n new found = some t) :
    t.session (t.pgrp p) = s.session (found.getD (s.pgrp p)) := by
  cases found with
  | some pg =>
    simp only [changePgrp] at ht
    split at ht
    · rename_i hpg
      cases ht
      exact congrArg s.session hpg
    · cases ht
      rw [session_join, pgrp_join, update_self, session_leavePgrp]
      rfl
  | none =>
    simp only [changePgrp] at ht
    split at ht
    · cases ht
    · cases ht
      rw [session_join, pgrp_join, update_self, session_leavePgrp, session_newPgrp]
      rfl

theorem step_setpgrp (pgid new) (hcaller : s.tree.Usable callerp)
    (hp : s.setpgrpProc callerp pid = some p) :
    s.step (.setpgrp callerp pid pgid new) =
      if s.SetpgrpRefused callerp p (s.setpgrpPgid p pgid) then some s
      else s.changePgrp p (s.setpgrpPgid p pgid).toNat new
        (find s.pghash (s.setpgrpPgid p pgid)) := by
  simp only [step, if_pos hcaller, procSetpgrp, hp]

theorem not_setpgrpRefused (h : ¬ s.SetpgrpRefused callerp p pgid) :
    s.sid (s.session (s.pgrp p)) ≠ s.pid p ∧
      s.session (s.pgrp p) = s.session (s.pgrp callerp) ∧
      (pgid ≠ s.pid p → ∀ pg ∈ find s.pghash pgid, s.session pg = s.session (s.pgrp callerp)) := by
  simp only [SetpgrpRefused, not_or, not_and] at h
  obtain ⟨-, -, hleader, hsession, hgroup⟩ := h
  refine ⟨hleader, not_not.mp hsession, fun hother pg hpg => ?_⟩
  have hall := hgroup hother
  rw [mem_def.mp hpg, all_some, decide_eq_true_eq] at hall
  exact not_not.mp hall

theorem setpgrpKeeps_iff (s : Server) (c : GroupCall) : SetpgrpKeeps s c ↔ OwnGroupInside s c := by
  cases c with
  | setpgrp callerp pid pgid new =>
    constructor
    · intro hkeeps hcaller p hp hallowed _ pg hpg
      have hstep := step_setpgrp pgid new hcaller hp
      rw [if_neg hallowed, mem_def.mp hpg] at hstep
      obtain ⟨t, ht⟩ : ∃ t, s.changePgrp p (s.setpgrpPgid p pgid).toNat new (some pg) = some t := by
        simp only [changePgrp]
        split <;> exact ⟨_, rfl⟩
      have hkept := (hkeeps p hp t (hstep.trans ht)).1
      rw [session_changePgrp ht] at hkept
      exact hkept.trans (not_setpgrpRefused hallowed).2.1
    · intro hinside p hp t ht
      have hcaller : s.tree.Usable callerp := by
        by_contra hnot
        simp [step, hnot] at ht
      rw [step_setpgrp pgid new hcaller hp] at ht
      split at ht
      · cases ht
        exact ⟨rfl, fun _ => rfl⟩
      · rename_i hallowed
        obtain ⟨hleader, hsession, hgroup⟩ := not_setpgrpRefused hallowed
        refine ⟨?_, fun h => absurd h hleader⟩
        rw [session_changePgrp ht]
        cases hfound : find s.pghash (s.setpgrpPgid p pgid) with
        | none => rfl
        | some pg =>
          apply Eq.trans _ hsession.symm
          by_cases hown : s.setpgrpPgid p pgid = s.pid p
          · exact hinside hcaller p hp hallowed hown pg hfound
          · exact hgroup hown pg hfound
  | _ => exact Iff.rfl

end Session

/-- In every run, the calls keep the sessions exactly if they let no process into a group with its
own number in another session. -/
theorem setpgrp_keeps_session_iff (calls : List GroupCall) :
    AdmitsLabels step SetpgrpKeeps boot calls ↔ AdmitsLabels step OwnGroupInside boot calls := by
  have hsame : SetpgrpKeeps = OwnGroupInside := by
    funext s c
    exact propext (setpgrpKeeps_iff s c)
  rw [hsame]

/-- A process makes a session, gets a child there, is moved to the session of init, and goes back to
the group that it has made. -/
theorem setpgrp_changes_session : ¬ ∀ calls, AdmitsLabels step SetpgrpKeeps boot calls := by
  intro h
  have hrun := h [.setsid 2 6 6, .child 2 3, .child 1 2, .setpgrp 2 0 0 7]
  exact absurd hrun (by decide)

end Hurd.Proc.Server
