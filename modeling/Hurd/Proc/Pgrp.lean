import Mathlib.Algebra.Order.Ring.Nat
import Hurd.Framework.Roster
import Hurd.Proc.Mgt

/-!
# Process groups and sessions

`proc/pgrp.c`, with the calls of `proc/mgt.c` that change groups: a process is in the list of its
process group, and a group is in the list of its session. A group is freed when its last process
leaves, and a session with its last group. Processes, groups and sessions are found by number in hash
tables, and `genpid` finds a number that is in no table.

Memory is always there, and where an object is allocated is an argument of the call. A table is the
finite map that it stands for. Messages and signals are left out.
-/

namespace Hurd.Proc

open Function

/-- The proc server, after it has been started. -/
structure Server where
  tree : Procs
  /-- `p_pid` -/
  pid : Nat → Nat
  exec : Nat → Bool
  /-- The processes in groups: `pg_plist`, `p_gnext`, `p_gprevp` and `p_pgrp`. -/
  members : Roster Nat
  groups : Finset Nat
  pgid : Nat → Nat
  orphcnt : Nat → Int
  /-- The groups in sessions: `s_pgrps`, `pg_next`, `pg_prevp` and `pg_session`. -/
  pgrps : Roster Nat
  sessions : Finset Nat
  /-- `s_sid` -/
  sid : Nat → Nat
  pidhash : Nat → Option Nat
  pghash : Nat → Option Nat
  sidhash : Nat → Option Nat
  /-- The variables of `genpid`. -/
  nextpid : Nat
  wrap : Nat

namespace Server

variable (s : Server)

def pgrp (p : Nat) : Nat := s.members.owner p

def session (pg : Nat) : Nat := s.pgrps.owner pg

/-- The parent of the process is in another group of the session of `pg`. -/
def ParentOutside (p pg : Nat) : Prop :=
  s.pgrp (s.tree.parent p) ≠ pg ∧ s.session (s.pgrp (s.tree.parent p)) = s.session pg

instance parentOutsideDecidable (p pg : Nat) : Decidable (s.ParentOutside p pg) :=
  inferInstanceAs (Decidable (_ ∧ _))

/-- `new_pgrp`, where the group is allocated at `pg`. -/
def newPgrp (pg pgid sess : Nat) : Server :=
  { s with
    groups := insert pg s.groups
    members := s.members.addOwner pg
    pgid := update s.pgid pg pgid
    orphcnt := update s.orphcnt pg 0
    pgrps := (s.pgrps.setOwner pg sess).join pg
    pghash := update s.pghash pgid (some pg) }

/-- `new_session`, where the session is allocated at `sess`. -/
def newSession (sess p : Nat) : Server :=
  { s with
    sessions := insert sess s.sessions
    sid := update s.sid sess (s.pid p)
    pgrps := s.pgrps.addOwner sess
    sidhash := update s.sidhash (s.pid p) (some sess) }

def freeSession (sess : Nat) : Server :=
  { s with
    sidhash := update s.sidhash (s.sid sess) none
    sessions := s.sessions.erase sess }

def freePgrp (pg : Nat) : Server :=
  let s := { s with pgrps := s.pgrps.leave pg }
  let s := if s.pgrps.first (s.session pg) = none then s.freeSession (s.session pg) else s
  { s with
    pghash := update s.pghash (s.pgid pg) none
    groups := s.groups.erase pg }

def leavePgrp (p : Nat) : Server :=
  let pg := s.pgrp p
  let s := { s with members := s.members.leave p }
  if s.members.first pg = none then s.freePgrp pg
  else if s.ParentOutside p pg then
    { s with orphcnt := update s.orphcnt pg (s.orphcnt pg - 1) }
  else s

def joinPgrp (p : Nat) : Server :=
  let pg := s.pgrp p
  let s := { s with members := s.members.join p }
  if s.ParentOutside p pg then
    { s with orphcnt := update s.orphcnt pg (s.orphcnt pg + 1) }
  else s

/-- `p->p_pgrp = pg` -/
def setPgrp (p pg : Nat) : Server := { s with members := s.members.setOwner p pg }

def Pidfree (pid : Nat) : Prop :=
  s.pidhash pid = none ∧ s.pghash pid = none ∧ s.sidhash pid = none

instance pidfreeDecidable (pid : Nat) : Decidable (s.Pidfree pid) :=
  inferInstanceAs (Decidable (_ ∧ _ ∧ _))

/-- `while (nextpid < wrap && !pidfree (nextpid)) ++nextpid` -/
def nextFree : Nat → Nat → Nat
  | 0, nextpid => nextpid
  | left + 1, nextpid => if s.Pidfree nextpid then nextpid else nextFree left (nextpid + 1)

/-- `while (!pidfree (nextpid)) nextpid++`, up to the greatest `int`. -/
def nextFreeFrom : Nat → Nat → Option Nat
  | 0, _ => none
  | left + 1, nextpid =>
      if s.Pidfree nextpid then some nextpid else nextFreeFrom left (nextpid + 1)

/-- `while (nextpid > wrap) wrap *= 2`. There is no result where an `int` overflows. -/
def growWrap : Nat → Nat → Nat → Option Nat
  | 0, _, _ => none
  | fuel + 1, nextpid, wrap =>
      if wrap < nextpid then
        if wrap * 2 < 2 ^ 31 then growWrap fuel nextpid (wrap * 2) else none
      else some wrap

def startOver : Nat := 100

def genpid : Option (Nat × Server) :=
  let nextpid := s.nextFree (s.wrap - s.nextpid) s.nextpid
  if s.wrap ≤ nextpid then
    match s.nextFreeFrom (2 ^ 31 - 1 - startOver) startOver with
    | none => none
    | some nextpid =>
        match growWrap 32 nextpid s.wrap with
        | none => none
        | some wrap => some (nextpid, { s with nextpid := nextpid + 1, wrap := wrap })
  else some (nextpid, { s with nextpid := nextpid + 1 })

/-- `allocate_proc` and `complete_proc` -/
def completeProc (p pid : Nat) : Server :=
  let s := { s with
    tree := Proc.completeProc s.tree p
    pid := update s.pid p pid
    exec := update s.exec p false
    members := s.members.setOwner p (s.pgrp initProc)
    pidhash := update s.pidhash pid (some p) }
  s.joinPgrp p

def procChild (parentp childp : Nat) : Option Server :=
  match Proc.procChild s.tree parentp childp with
  | none => none
  | some tree =>
      if s.tree.parentset childp = true then some s
      else
        let s := { s with tree := tree }
        if s.pgrp childp ≠ s.pgrp parentp then
          some (((s.leavePgrp childp).setPgrp childp (s.pgrp parentp)).joinPgrp childp)
        else some s

/-- The process leads a group, or a group has its number. -/
def SetsidRefused (p : Nat) : Prop :=
  s.pgid (s.pgrp p) = s.pid p ∨ s.pghash (s.pid p) ≠ none

instance setsidRefusedDecidable (p : Nat) : Decidable (s.SetsidRefused p) :=
  inferInstanceAs (Decidable (_ ∨ _))

/-- `S_proc_setsid`, where the session and the group are allocated at `sess` and `pg`. -/
def procSetsid (p sess pg : Nat) : Option Server :=
  if s.SetsidRefused p then some s
  else
    let s := s.leavePgrp p
    if sess ∈ s.sessions ∨ pg ∈ s.groups then none
    else
      let s := s.newSession sess p
      let s := s.newPgrp pg (s.pid p) sess
      some ((s.setPgrp p pg).joinPgrp p)

/-- Entries of the tables are looked for with a `pid_t`. -/
def find (table : Nat → Option Nat) (k : Int) : Option Nat :=
  if k < 0 then none else table k.toNat

def pidFind (pid : Int) : Option Nat :=
  (find s.pidhash pid).filter fun p => s.tree.dead p = false

/-- The end of `S_proc_setpgrp`, for a group that has been found, or else is allocated at `new`. -/
def changePgrp (p pgid new : Nat) (pg : Option Nat) : Option Server :=
  match pg with
  | some pg =>
      if s.pgrp p = pg then some s
      else some (((s.leavePgrp p).setPgrp p pg).joinPgrp p)
  | none =>
      if new ∈ s.groups then none
      else
        let s := s.newPgrp new pgid (s.session (s.pgrp p))
        some (((s.leavePgrp p).setPgrp p new).joinPgrp p)

/-- The process that `S_proc_setpgrp` is about. -/
def setpgrpProc (callerp : Nat) (pid : Int) : Option Nat :=
  if pid = 0 then some callerp else s.pidFind pid

/-- The number of the group that `S_proc_setpgrp` is about. -/
def setpgrpPgid (p : Nat) (pgid : Int) : Int := if pgid = 0 then s.pid p else pgid

/-- The checks of `S_proc_setpgrp`. -/
def SetpgrpRefused (callerp p : Nat) (pgid : Int) : Prop :=
  (p ≠ callerp ∧ s.tree.parent p ≠ callerp) ∨ (s.tree.parent p = callerp ∧ s.exec p = true) ∨
    s.sid (s.session (s.pgrp p)) = s.pid p ∨ s.session (s.pgrp p) ≠ s.session (s.pgrp callerp) ∨
    pgid ≠ s.pid p ∧ (find s.pghash pgid).all
      (fun pg => decide (s.session pg ≠ s.session (s.pgrp callerp))) = true

instance setpgrpRefusedDecidable (callerp p : Nat) (pgid : Int) :
    Decidable (s.SetpgrpRefused callerp p pgid) :=
  inferInstanceAs (Decidable (_ ∨ _ ∨ _ ∨ _ ∨ _ ∧ _))

def procSetpgrp (callerp : Nat) (pid pgid : Int) (new : Nat) : Option Server :=
  match s.setpgrpProc callerp pid with
  | none => some s
  | some p =>
      if s.SetpgrpRefused callerp p (s.setpgrpPgid p pgid) then some s
      else s.changePgrp p (s.setpgrpPgid p pgid).toNat new (find s.pghash (s.setpgrpPgid p pgid))

def completeExit (p : Nat) : Option Server :=
  match Proc.completeExit s.tree p with
  | none => none
  | some tree =>
      let s := { s with tree := tree, pidhash := update s.pidhash (s.pid p) none }
      some (s.leavePgrp p)

def processHasExited (p : Nat) : Option Server :=
  if s.tree.dead p = true then some s
  else
    match leaveChildren { s.tree with waited := update s.tree.waited p false } p with
    | none => none
    | some tree =>
        if (tree.taskNamespace p).isSome = true then
          completeExit { s with
            tree := { tree with
              dead := update tree.dead p true
              waited := update tree.waited p true } } p
        else some { s with tree := { tree with dead := update tree.dead p true } }

end Server

/-- The calls that change groups, and those that change the hierarchy. -/
inductive GroupCall where
  | create (p : Nat)
  | child (parentp childp : Nat)
  | setpgrp (callerp : Nat) (pid pgid : Int) (new : Nat)
  | setsid (p sess pg : Nat)
  | markExec (p : Nat)
  | makeTaskNamespace (p notify : Nat)
  | taskDied (p : Nat)
  | wait (p child : Nat)

namespace Server

def step (s : Server) : GroupCall → Option Server
  | .create p =>
      if p ∈ s.tree.known then none
      else
        match s.genpid with
        | none => none
        | some (pid, s) => some (s.completeProc p pid)
  | .child parentp childp =>
      if s.tree.Usable parentp ∧ s.tree.Usable childp then s.procChild parentp childp else none
  | .setpgrp callerp pid pgid new =>
      if s.tree.Usable callerp then s.procSetpgrp callerp pid pgid new else none
  | .setsid p sess pg => if s.tree.Usable p then s.procSetsid p sess pg else none
  | .markExec p =>
      if s.tree.Usable p then some { s with exec := update s.exec p true } else none
  | .makeTaskNamespace p notify =>
      match Proc.step s.tree (.makeTaskNamespace p notify) with
      | none => none
      | some tree => some { s with tree := tree }
  | .taskDied p => if p ∈ s.tree.known then s.processHasExited p else none
  | .wait p child =>
      if s.tree.Usable p ∧ child ∈ s.tree.known ∧ s.tree.parent child = p ∧
          s.tree.dead child = true ∧ s.tree.waited child = false then
        completeExit { s with
          tree := { s.tree with waited := update s.tree.waited child true } } child
      else none

/-- `boot_setsid`, where the session and the group are allocated at `sess` and `pg`. -/
def bootSetsid (s : Server) (p sess pg : Nat) : Server :=
  let s := s.newSession sess p
  let s := s.newPgrp pg (s.pid p) sess
  (s.setPgrp p pg).joinPgrp p

/-- Init, before it has a session, and when it has been entered into the table. -/
def initOnly : Server where
  tree := createInitProc
  pid := fun _ => 1
  exec := fun _ => false
  members := ⟨fun _ => none, fun _ => none, fun p => .first p, fun _ => 1⟩
  groups := ∅
  pgid := fun _ => 0
  orphcnt := fun _ => 0
  pgrps := ⟨fun _ => none, fun _ => none, fun p => .first p, fun _ => 1⟩
  sessions := ∅
  sid := fun _ => 0
  pidhash := fun k => if k = 1 then some initProc else none
  pghash := fun _ => none
  sidhash := fun _ => none
  nextpid := 1
  wrap := 30000

def pidStartup : Nat := 2

def pidProc : Nat := 4

/-- The server after `main` has made the processes of init, of the startup server and of itself and
these are in the tables. -/
def boot : Server :=
  ((initOnly.bootSetsid initProc 1 1).completeProc 2 pidStartup).completeProc 3 pidProc

end Server

end Hurd.Proc
