import Hurd.Proc.Pgrp
import Hurd.Proc.Rusage

/-!
# Waiting for children

`proc/wait.c`, and what `process_has_exited` does for it: a thread that waits for children of its
process blocks on the condition `p_wakeup` of the process, which is broadcast when a child dies, stops
or goes on. When a process dies, its usage and that of its dead children are added to what its parent
has used.

All processes have a task. Statuses and signals are left out. A thread is known by its request. The
condition is also used by threads that wait for a message port, so it can be broadcast at any time, and
a wait on it can return at any time.
-/

namespace Hurd.Proc

open Function

structure WaitOptions where
  wnohang : Bool
  wuntraced : Bool
  wexited : Bool
  wcontinued : Bool
  wnowait : Bool
  deriving DecidableEq

/-- A thread of a process that is blocked in `S_proc_waitid`. -/
structure Blocked where
  proc : Nat
  pid : Int
  options : WaitOptions
  /-- The condition has been broadcast since it has blocked. -/
  woken : Bool
  deriving DecidableEq

structure WaitServer where
  server : Server
  stopped : Nat → Bool
  continued : Nat → Bool
  traced : Nat → Bool
  waiting : Nat → Bool
  rusage : Nat → Rusage
  childRusage : Nat → Rusage
  blocked : List Blocked

namespace WaitServer

variable (w : WaitServer)

def tree : Procs := w.server.tree

/-- `p->p_pgrp->pg_pgid` -/
def pgidOf (p : Nat) : Nat := w.server.pgid (w.server.pgrp p)

/-- `pthread_cond_broadcast (&q->p_wakeup)` -/
def broadcast (q : Nat) : WaitServer :=
  { w with blocked := w.blocked.map fun b => if b.proc = q then { b with woken := true } else b }

/-- `if (q->p_waiting) { pthread_cond_broadcast (&q->p_wakeup); q->p_waiting = 0; }` -/
def wake (q : Nat) : WaitServer :=
  if w.waiting q = true then { w.broadcast q with waiting := update w.waiting q false } else w

/-- `if (p->p_waiting) pthread_cond_broadcast (&p->p_wakeup)` -/
def wakeSelf (p : Nat) : WaitServer := if w.waiting p = true then w.broadcast p else w

/-- `rusage_add (&q->p_child_rusage, &u)` -/
def addChildRusage (q : Nat) (u : Rusage) : WaitServer :=
  { w with childRusage := update w.childRusage q ((w.childRusage q).add u) }

/-- `rusage_add (&q->p_child_rusage, &p->p_child_rusage)` -/
def addDescendants (q p : Nat) : WaitServer := w.addChildRusage q (w.childRusage p)

def alertParent (p : Nat) : WaitServer :=
  ((w.addChildRusage (w.tree.parent p) (w.rusage p)).addDescendants (w.tree.parent p) p).wake
    (w.tree.parent p)

def waitAny : Int := -1

def waitMypgrp : Int := 0

def waiterCares (waitPid : Int) (mypgrp pid pgrp : Nat) : Bool :=
  waitPid = pid || waitPid = -(pgrp : Int) || waitPid = waitAny ||
    (waitPid = waitMypgrp && pgrp = mypgrp)

/-- What `reap` looks for. -/
def reapable (options : WaitOptions) (child : Nat) : Bool :=
  !(w.tree.waited child ||
    ((!w.tree.dead child || !options.wexited) &&
      (!w.stopped child || !(w.traced child || options.wuntraced)) &&
      (!w.continued child || !options.wcontinued)))

/-- `reap` of a child that is what it looks for. -/
def reap (options : WaitOptions) (child : Nat) : Option WaitServer :=
  if options.wnowait = true then some w
  else if w.tree.dead child = true then
    (Server.completeExit { w.server with
      tree := { w.tree with waited := update w.tree.waited child true } } child).map
        fun s => { w with server := s }
  else
    some { w with server := { w.server with
      tree := { w.tree with waited := update w.tree.waited child true } } }

/-- The children from one on, as the links go. -/
def childrenFrom (s : Procs) : Nat → Option Nat → Option (List Nat)
  | _, none => some []
  | 0, some _ => none
  | fuel + 1, some c => (childrenFrom s fuel (s.sib c)).map (c :: ·)

/-- The end of `S_proc_waitid` for a request that no child answers. -/
def block (p : Nat) (pid : Int) (options : WaitOptions) : WaitServer :=
  if options.wnohang = true then w
  else
    { w with
      waiting := update w.waiting p true
      blocked := ⟨p, pid, options, false⟩ :: w.blocked }

/-- `S_proc_waitid` from `start_over` on. -/
def startOver (p : Nat) (pid : Int) (options : WaitOptions) : Option WaitServer :=
  match w.tree.ochild p with
  | none => some w
  | some first =>
      if 0 < pid then
        match w.server.pidhash pid.toNat with
        | none => some w
        | some child =>
            if w.tree.parent child ≠ p then some w
            else if w.reapable options child = true then w.reap options child
            else some (w.block p pid options)
      else
        match childrenFrom w.tree (w.tree.known.card + 1) (some first) with
        | none => none
        | some children =>
            match children.find? fun child =>
              waiterCares pid (w.pgidOf p) (w.server.pid child) (w.pgidOf child) &&
                w.reapable options child with
            | some child => w.reap options child
            | none =>
                if pid = 0 ∨ children.any (fun child =>
                    waiterCares pid (w.pgidOf p) (w.server.pid child) (w.pgidOf child)) = true then
                  some (w.block p pid options)
                else some w

/-- A wait on the condition returns, or is cancelled. -/
def resume (b : Blocked) (cancel : Bool) : Option WaitServer :=
  if w.tree.dead b.proc = true ∨ cancel = true then
    some { w with blocked := w.blocked.erase b }
  else startOver { w with blocked := w.blocked.erase b } b.proc b.pid b.options

def markStop (p : Nat) : WaitServer :=
  wake { w with
    stopped := update w.stopped p true
    continued := update w.continued p false
    server := { w.server with
      tree := { w.tree with waited := update w.tree.waited p false } } } (w.tree.parent p)

def markCont (p : Nat) : WaitServer :=
  wake { w with
    stopped := update w.stopped p false
    continued := update w.continued p true
    server := { w.server with
      tree := { w.tree with waited := update w.tree.waited p false } } } (w.tree.parent p)

/-- The loop of `process_has_exited` over the children: whether one is dead that is not the last. -/
def isdead (s : Procs) : Nat → Nat → Option Bool
  | 0, _ => none
  | fuel + 1, tp =>
      match s.sib tp with
      | none => some false
      | some x => (isdead s fuel x).map (s.dead tp || ·)

/-- `if (isdead) alert_parent (reparent_to)`, where `s` is the tree before the process has exited. -/
def alertHeir (s : Procs) (p : Nat) : Option WaitServer :=
  match s.ochild p with
  | none => some w
  | some child =>
      match heir s p, isdead s (s.known.card + 1) child with
      | some reparentTo, some isdead =>
          some (if isdead = true then w.alertParent reparentTo else w)
      | _, _ => none

/-- `process_has_exited`. That the process is dead matters to none of the calls in it. -/
def processHasExited (p : Nat) : Option WaitServer :=
  if w.tree.dead p = true then some w
  else
    match w.server.processHasExited p with
    | none => none
    | some s =>
        (alertHeir { w.alertParent p with server := s } w.tree p).map fun w => w.wakeSelf p

end WaitServer

inductive WaitCall where
  /-- A call that neither waits nor ends a process. -/
  | group (c : GroupCall)
  | taskDied (p : Nat)
  /-- `proc_mark_exit`, with the sample that it takes. -/
  | markExit (p : Nat) (usage : Rusage)
  | markStop (p : Nat)
  | markCont (p : Nat)
  | markTraced (p : Nat)
  /-- `proc_wait` and `proc_waitid` -/
  | wait (p : Nat) (pid : Int) (options : WaitOptions)
  /-- The wait of a thread on the condition returns. -/
  | resume (b : Blocked) (cancel : Bool)
  /-- The condition of the process is broadcast for a message port. -/
  | broadcast (p : Nat)

namespace WaitServer

/-- A new process. Memory that a blocked thread uses is not free. -/
def create (w : WaitServer) (p : Nat) : Option WaitServer :=
  if ∀ b ∈ w.blocked, b.proc ≠ p then
    (w.server.step (.create p)).map fun s =>
      { w with
        server := s
        stopped := update w.stopped p false
        continued := update w.continued p false
        traced := update w.traced p false
        waiting := update w.waiting p false
        rusage := update w.rusage p .zero
        childRusage := update w.childRusage p .zero }
  else none

def step (w : WaitServer) : WaitCall → Option WaitServer
  | .group (.create p) => w.create p
  | .group (.taskDied _) => none
  | .group (.wait _ _) => none
  | .group c => (w.server.step c).map fun s => { w with server := s }
  | .taskDied p => if p ∈ w.tree.known then w.processHasExited p else none
  | .markExit p usage =>
      if w.tree.Usable p then some { w with rusage := update w.rusage p usage } else none
  | .markStop p => if w.tree.Usable p then some (w.markStop p) else none
  | .markCont p => if w.tree.Usable p then some (w.markCont p) else none
  | .markTraced p =>
      if w.tree.Usable p then some { w with traced := update w.traced p true } else none
  | .wait p pid options => if w.tree.Usable p then w.startOver p pid options else none
  | .resume b cancel => if b ∈ w.blocked then w.resume b cancel else none
  | .broadcast p => some (w.broadcast p)

/-- The server after it has been started. -/
def boot : WaitServer where
  server := .boot
  stopped := fun _ => false
  continued := fun _ => false
  traced := fun _ => false
  waiting := fun _ => false
  rusage := fun _ => .zero
  childRusage := fun _ => .zero
  blocked := []

end WaitServer

end Hurd.Proc
