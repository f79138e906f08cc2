import Mathlib.Data.Finset.Card
import Hurd.Framework.BackLinked

/-!
# The process hierarchy of the proc server

`proc/mgt.c` and the reaping of `proc/wait.c`: each process has a parent and is in the list of its
children, which begins at `p_ochild` and goes on through `p_sib`; `p_prevsib` points back at the
link that points to the process. A process whose task has died stays until it is waited for, and leaves
its children to init or to the creator of its task namespace.

Calls run under `global_lock` and are atomic. The hash tables, process groups, logins, ids, message
ports and signals are left out.
-/

namespace Hurd.Proc

open Function

/-- The processes, with a function for each field of `struct proc`. Processes are numbers, their
addresses. -/
structure Procs where
  /-- The processes that have been allocated and not been freed. -/
  known : Finset Nat
  parent : Nat → Nat
  ochild : Nat → Option Nat
  sib : Nat → Option Nat
  prevsib : Nat → Link Nat
  dead : Nat → Bool
  waited : Nat → Bool
  parentset : Nat → Bool
  /-- The port, where it is valid. -/
  taskNamespace : Nat → Option Nat

def initProc : Nat := 1

namespace Procs

variable (s : Procs)

def deref : Link Nat → Option Nat
  | .first q => s.ochild q
  | .next p => s.sib p

/-- `*l = v` -/
def store (l : Link Nat) (v : Option Nat) : Procs :=
  match l with
  | .first q => { s with ochild := update s.ochild q v }
  | .next p => { s with sib := update s.sib p v }

/-- `if (o) o->p_prevsib = l` -/
def storeBack (o : Option Nat) (l : Link Nat) : Procs :=
  { s with prevsib := setBack s.prevsib o l }

/-- Take the process out of the list of its parent. -/
def unlink (p : Nat) : Procs :=
  let s := s.storeBack (s.sib p) (s.prevsib p)
  s.store (s.prevsib p) (s.sib p)

/-- Put the process in front of the list of its new parent. -/
def linkFirst (p q : Nat) : Procs :=
  let s := { s with
    parent := update s.parent p q
    sib := update s.sib p (s.ochild q)
    prevsib := update s.prevsib p (.first q) }
  let s := s.storeBack (s.ochild q) (.next p)
  s.store (.first q) (some p)

/-- The process can be used in calls. -/
def Usable (p : Nat) : Prop := p ∈ s.known ∧ s.dead p = false

instance usableDecidable (p : Nat) : Decidable (s.Usable p) := inferInstanceAs (Decidable (_ ∧ _))

end Procs

def createInitProc : Procs where
  known := {initProc}
  parent := fun _ => initProc
  ochild := fun q => if q = initProc then some initProc else none
  sib := fun _ => none
  prevsib := fun _ => .first initProc
  dead := fun _ => false
  waited := fun _ => false
  parentset := fun p => decide (p = initProc)
  taskNamespace := fun _ => none

variable (s : Procs)

/-- `allocate_proc` and `complete_proc` -/
def completeProc (p : Nat) : Procs :=
  let s := { s with
    known := insert p s.known
    ochild := update s.ochild p none
    dead := update s.dead p false
    waited := update s.waited p false
    parentset := update s.parentset p false
    taskNamespace := update s.taskNamespace p none }
  s.linkFirst p initProc

def procChild (parentp childp : Nat) : Option Procs :=
  if s.parentset childp = true then some s
  else if s.parent childp ≠ initProc then none
  else
    let t := s.unlink childp
    let t := t.linkFirst childp parentp
    let t := { t with parentset := update t.parentset childp true }
    if (s.taskNamespace parentp).isSome = true then
      some { t with taskNamespace := update t.taskNamespace childp (s.taskNamespace parentp) }
    else some t

def namespaceFindRoot : Nat → Nat → Option Nat
  | 0, _ => none
  | fuel + 1, p =>
      if (s.taskNamespace (s.parent p)).isSome = true then namespaceFindRoot fuel (s.parent p)
      else some p

/-- `reparent_to` of `process_has_exited`: the process that the children of a dying process are given
to. -/
def heir (p : Nat) : Option Nat :=
  if (s.taskNamespace p).isSome = true then
    (namespaceFindRoot s (s.known.card + 1) p).map fun tp => if p = tp then initProc else tp
  else some initProc

def completeExit (p : Nat) : Option Procs :=
  if s.dead p = true ∧ s.waited p = true then
    some { s.unlink p with known := s.known.erase p }
  else none

/-- The loop that tells the children of their new parent, and the last child. -/
def setParents (reparentTo : Nat) : Nat → Nat → Procs → Option (Procs × Nat)
  | 0, _, _ => none
  | fuel + 1, tp, s =>
      let s := { s with parent := update s.parent tp reparentTo }
      match s.sib tp with
      | none => some (s, tp)
      | some x => setParents reparentTo fuel x s

/-- The children get a new parent and are put in front of its list. A loop over processes that has
not ended after as many rounds as there are processes does not end. -/
def reparent (p reparentTo child : Nat) : Option Procs :=
  match setParents reparentTo (s.known.card + 1) child s with
  | none => none
  | some (s, tp) =>
      let s := s.store (.next tp) (s.ochild reparentTo)
      let s := s.storeBack (s.sib tp) (.next tp)
      let s := s.store (.first reparentTo) (s.ochild p)
      some (s.storeBack (s.ochild p) (.first reparentTo))

/-- `process_has_exited` up to where the process is marked as dead. -/
def leaveChildren (p : Nat) : Option Procs :=
  match s.ochild p with
  | none => some s
  | some child =>
      if (s.taskNamespace p).isSome = true then
        match namespaceFindRoot s (s.known.card + 1) p with
        | none => none
        | some tp =>
            if p = tp then
              reparent { s with taskNamespace := update s.taskNamespace p none } p initProc child
            else reparent s p tp child
      else reparent s p initProc child

def processHasExited (p : Nat) : Option Procs :=
  if s.dead p = true then some s
  else
    match leaveChildren { s with waited := update s.waited p false } p with
    | none => none
    | some s =>
        if (s.taskNamespace p).isSome = true then
          completeExit { s with dead := update s.dead p true, waited := update s.waited p true } p
        else some { s with dead := update s.dead p true }

/-- `S_proc_reassign`. It frees the stub, and once more where the stub is in a task namespace. -/
def procReassign (p stubp : Nat) : Option Procs :=
  if stubp = p then some s
  else
    match processHasExited s stubp with
    | none => none
    | some s => completeExit { s with waited := update s.waited stubp true } stubp

inductive Call where
  | create (p : Nat)
  | child (parentp childp : Nat)
  | makeTaskNamespace (p notify : Nat)
  | taskDied (p : Nat)
  /-- `proc_wait` of a process for a child that is dead. -/
  | wait (p child : Nat)
  | reassign (p stubp : Nat)

def step : Call → Option Procs
  | .create p => if p ∈ s.known then none else some (completeProc s p)
  | .child parentp childp =>
      if s.Usable parentp ∧ s.Usable childp then procChild s parentp childp else none
  | .makeTaskNamespace p notify =>
      if s.Usable p then
        if (s.taskNamespace p).isSome = true then some s
        else some { s with taskNamespace := update s.taskNamespace p (some notify) }
      else none
  | .taskDied p => if p ∈ s.known then processHasExited s p else none
  | .wait p child =>
      if s.Usable p ∧ child ∈ s.known ∧ s.parent child = p ∧ s.dead child = true ∧
          s.waited child = false then
        completeExit { s with waited := update s.waited child true } child
      else none
  | .reassign p stubp =>
      if s.Usable p ∧ s.Usable stubp then procReassign s p stubp else none

end Hurd.Proc
