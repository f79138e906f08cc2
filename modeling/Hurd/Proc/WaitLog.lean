import Hurd.Proc.Wait

/-!
# What requests report

What `S_proc_waitid` hands back of a child: the status word, which `proc_mark_stop`,
`proc_mark_cont`, `proc_mark_exit` and the death of the process all write, and the usage. Beside the
server there is a log of what becomes of the processes and of the reports, the latest first.

An exception that nobody handles, which is noted as an exit, and signals are left out.
-/

namespace Hurd.Proc

open Function

def wExitcode (ret sig : Nat) : Nat := ret * 256 + sig

def wStopcode (sig : Nat) : Nat := sig * 256 + 127

def wContinued : Nat := 65535

def wifstopped (status : Nat) : Bool := status % 256 = 127

def sigkill : Nat := 9

namespace WaitServer

variable (w : WaitServer)

/-- The child that `S_proc_waitid` reaps when it starts over. -/
def answer (p : Nat) (pid : Int) (options : WaitOptions) : Option Nat :=
  match w.tree.ochild p with
  | none => none
  | some first =>
      if 0 < pid then
        (w.server.pidhash pid.toNat).filter fun child =>
          decide (w.tree.parent child = p) && w.reapable options child
      else
        (childrenFrom w.tree (w.tree.known.card + 1) (some first)).bind fun children =>
          children.find? fun child =>
            waiterCares pid (w.pgidOf p) (w.server.pid child) (w.pgidOf child) &&
              w.reapable options child

/-- The processes whose parents `process_has_exited` alerts. -/
def alerted (p : Nat) : List Nat :=
  match w.tree.ochild p with
  | none => [p]
  | some child =>
      match heir w.tree p, isdead w.tree (w.tree.known.card + 1) child with
      | some reparentTo, some true => [p, reparentTo]
      | _, _ => [p]

end WaitServer

/-- What becomes of a process. -/
inductive ChildEvent where
  | born
  | stop
  | cont
  | death
  deriving DecidableEq

/-- What a request hands back. -/
structure WaitReport where
  /-- The process that asks. -/
  parent : Nat
  options : WaitOptions
  child : Nat
  status : Nat
  sigcode : Int
  usage : Rusage
  /-- `pid_status` -/
  pid : Nat

inductive WaitEntry where
  | event (p : Nat) (e : ChildEvent)
  | report (r : WaitReport)

/-- The server with the statuses and the log. -/
structure WaitLog where
  waits : WaitServer
  exiting : Nat → Bool
  status : Nat → Nat
  sigcode : Nat → Int
  entries : List WaitEntry

/-- A call, with the `signo` of `proc_mark_stop` or the `status` of `proc_mark_exit`, and the
`sigcode`. -/
structure MarkedCall where
  call : WaitCall
  number : Nat
  sigcode : Int

namespace WaitCall

/-- The process that asks for children, and what it asks for. -/
def request : WaitCall → Option (Nat × WaitOptions)
  | .wait p _ options => some (p, options)
  | .resume b _ => some (b.proc, b.options)
  | _ => none

def reported (w : WaitServer) : WaitCall → Option Nat
  | .wait p pid options => w.answer p pid options
  | .resume b cancel =>
      if w.tree.dead b.proc = true ∨ cancel = true then none
      else w.answer b.proc b.pid b.options
  | _ => none

end WaitCall

namespace WaitLog

variable (l : WaitLog)

/-- What a request hands back of a child. -/
def reportOf (p : Nat) (options : WaitOptions) (child : Nat) : WaitReport where
  parent := p
  options := options
  child := child
  status := l.status child
  sigcode := l.sigcode child
  usage := l.waits.rusage child
  pid := l.waits.server.pid child

/-- `p_status` and `p_sigcode` after `alert_parent` of the processes. -/
def alert (ps : List Nat) : WaitLog :=
  { l with
    status := fun q => if q ∈ ps ∧ l.exiting q = false then wExitcode 0 sigkill else l.status q
    sigcode := fun q => if q ∈ ps ∧ l.exiting q = false then -1 else l.sigcode q }

/-- `p->p_status = status; p->p_sigcode = sigcode` -/
def setStatus (p status : Nat) (sigcode : Int) : WaitLog :=
  { l with status := update l.status p status, sigcode := update l.sigcode p sigcode }

/-- The call is logged, with the statuses that it sets. -/
def record (c : MarkedCall) : WaitLog :=
  match c.call with
  | .group (.create p) =>
      { l.setStatus p 0 0 with
        exiting := update l.exiting p false
        entries := .event p .born :: l.entries }
  | .taskDied p =>
      if l.waits.tree.dead p = true then l
      else { l.alert (l.waits.alerted p) with entries := .event p .death :: l.entries }
  | .markExit p _ =>
      if l.exiting p = true then l
      else { l.setStatus p c.number c.sigcode with exiting := update l.exiting p true }
  | .markStop p =>
      { l.setStatus p (wStopcode c.number) c.sigcode with
        entries := .event p .stop :: l.entries }
  | .markCont p =>
      { l.setStatus p wContinued (l.sigcode p) with entries := .event p .cont :: l.entries }
  | call =>
      match call.request, call.reported l.waits with
      | some (p, options), some child =>
          { l with entries := .report (l.reportOf p options child) :: l.entries }
      | _, _ => l

/-- `proc_mark_exit` does not take the status of a stop. -/
def refused (c : MarkedCall) : Bool :=
  match c.call with
  | .markExit _ _ => wifstopped c.number
  | _ => false

def step (c : MarkedCall) : Option WaitLog :=
  match l.waits.step c.call with
  | none => none
  | some w => if refused c = true then some l else some { l.record c with waits := w }

/-- The server after it has been started. -/
def boot : WaitLog where
  waits := .boot
  exiting := fun _ => false
  status := fun _ => 0
  sigcode := fun _ => 0
  entries := []

end WaitLog

end Hurd.Proc
